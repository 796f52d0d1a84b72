import FrostVista.Kernel.SignalRuns

/-!
# The process table: fork, exec, exit, wait4 and the terminal

A step lasts from one place where the kernel may switch to the next: `exit` first takes the process
from the terminal and closes its files, which may sleep, and does the rest in one step. `exec` may
sleep as well, but what it changes in the table it changes at once.
-/
namespace FrostVista.Kernel.ProcTable

open Lib List

open Signal (SlotId)

/-- What `freeproc` frees. -/
inductive Resource where
  | kstack
  | pagetable
  | context
  deriving DecidableEq

/-- The numbers of the allocations of `alloc_process`, after `n` others. -/
def fresh (n : Nat) : Resource → Option Nat
  | .kstack => some n
  | .pagetable => some (n + 1)
  | .context => some (n + 2)

/-- `born` tells which process it is: the number of the call of `get_pid`, before it became an
`int`. `waits` is the number given to the `wait4` that the process sleeps in, on its own entry. -/
structure Slot where
  state : ProcState
  pid : Int
  born : Nat
  parent : Option SlotId
  waits : Option Int
  exitCode : Int
  exiting : Bool

/-- `owners` is `tty.input_owner` up to its index, each entry with the process that was claimed.
`layout` tells whether `heap_top > 0 || stack_top > stack_bottom`. `held` has the numbers of the
allocations that the processes have, of `objects` allocations. The rest is what has happened so far:
for each `SIGINT` of the terminal the process that was claimed and the one that got it, the children
that each process was given, with what code a process has exited, which process `wait4` returned it
to, under what number and with what code, what the process held then, how often an allocation was
freed, and which page tables `exec` has left without freeing them. -/
structure Table where
  proc : SlotId → Slot
  nextPid : Nat
  owners : List (SlotId × Nat)
  layout : SlotId → Bool
  held : SlotId → Resource → Option Nat
  objects : Nat
  sigints : List (Nat × Nat)
  given : Nat → Nat → Prop
  exited : Nat → Option Int
  returned : Nat → List (Nat × Int × Int)
  spent : Nat → Resource → Option Nat
  freed : Nat → Nat
  left : Nat → Prop

inductive Act where
  | dispatch
  | wake
  | yield
  | sleep
  | fork (copied : Bool)
  | exec
  | startExit
  | exit (code : Int)
  | wait4 (pid : Int) (nohang copied : Bool)
  | claim (pid : Int)
  | interrupt

/-- The `int` that `get_pid` returns. -/
def getPid (n : Nat) : Int := (n : Int).bmod (2 ^ 32)

lemma getPid_of_lt (h : n < 2 ^ 31) : getPid n = n := Int.bmod_eq_of_le (by omega) (by omega)

namespace Table

def set (s : Table) (i : SlotId) (p : Slot) : Table :=
  { s with proc := fun j => if j = i then p else s.proc j }

@[grind =] lemma set_proc (s : Table) (i j : SlotId) (p : Slot) :
    (s.set i p).proc j = if j = i then p else s.proc j := rfl

def setState (s : Table) (i : SlotId) (st : ProcState) : Table :=
  s.set i { s.proc i with state := st }

/-- `wakeup` of a process that sleeps in `wait4` -/
def wakeup (s : Table) (i : SlotId) : Table :=
  if (s.proc i).state = .sleeping ∧ (s.proc i).waits ≠ none then s.setState i .runnable else s

/-- `freeproc` -/
def free (s : Table) (i : SlotId) : Table :=
  { s.set i ⟨.unused, 0, 0, none, none, (s.proc i).exitCode, false⟩ with
    held := fun j r => if j = i then none else s.held j r
    freed := fun n => s.freed n + [Resource.kstack, .pagetable, .context].countP
      (s.held i · = some n) }

@[grind =] lemma free_proc (s : Table) (i j : SlotId) : (s.free i).proc j =
    if j = i then ⟨.unused, 0, 0, none, none, (s.proc i).exitCode, false⟩ else s.proc j := rfl

/-- `alloc_process`, as the child of `cur` -/
def alloc (s : Table) (cur i : SlotId) : Table :=
  { s.set i ⟨.runnable, getPid s.nextPid, s.nextPid, some cur, none, (s.proc i).exitCode,
    false⟩ with
    nextPid := s.nextPid + 1
    layout := fun j => if j = i then s.layout cur else s.layout j
    held := fun j r => if j = i then fresh s.objects r else s.held j r
    objects := s.objects + 3
    given := fun p c => s.given p c ∨ p = (s.proc cur).born ∧ c = s.nextPid }

@[grind =] lemma alloc_proc (s : Table) (cur i j : SlotId) : (s.alloc cur i).proc j =
    if j = i then
      ⟨.runnable, getPid s.nextPid, s.nextPid, some cur, none, (s.proc i).exitCode, false⟩
    else s.proc j := rfl

/-- `fork`; without memory for the pages the child is freed. -/
def fork (s : Table) (cur : SlotId) (copied : Bool) : Table :=
  match (List.finRange Signal.nproc).find? fun i => (s.proc i).state = .unused with
  | none => s
  | some i => if copied then s.alloc cur i else (s.alloc cur i).free i

/-- `exec` that succeeds: the page table is replaced. The old one is freed if the process had a heap
or a stack; the program has both. -/
def exec (s : Table) (cur : SlotId) : Table :=
  { s with
    layout := fun j => if j = cur then true else s.layout j
    held := fun j r => if j = cur ∧ r = .pagetable then some s.objects else s.held j r
    objects := s.objects + 1
    freed := fun n => s.freed n + if s.layout cur ∧ s.held cur .pagetable = some n then 1 else 0
    left := fun n => s.left n ∨ s.layout cur = false ∧ s.held cur .pagetable = some n }

/-- The children of `cur` go to the first process. -/
def reparent (s : Table) (cur : SlotId) : Table :=
  { s with
    proc := fun j => if (s.proc j).parent = some cur then
      { s.proc j with parent := some 0 } else s.proc j
    given := fun p c => s.given p c ∨ ∃ j, (s.proc j).parent = some cur ∧
      p = (s.proc 0).born ∧ c = (s.proc j).born }

@[grind =] lemma reparent_proc (s : Table) (cur j : SlotId) : (s.reparent cur).proc j =
    if (s.proc j).parent = some cur then { s.proc j with parent := some 0 } else s.proc j := rfl

/-- The rest of `exit`, after the files were closed -/
def exit (s : Table) (cur : SlotId) (code : Int) : Table :=
  let t := s.reparent cur
  let u := match (t.proc cur).parent with
    | none => t
    | some q => t.wakeup q
  { u.set cur { u.proc cur with state := .zombie, exitCode := code } with
    exited := fun n => if n = (s.proc cur).born then some code else s.exited n }

/-- The child `c` of `cur` is one that `wait4(pid)` waits for. -/
def Matches (s : Table) (cur : SlotId) (pid : Int) (c : SlotId) : Prop :=
  c ≠ cur ∧ (s.proc c).parent = some cur ∧ (pid = -1 ∨ (s.proc c).pid = pid)

instance (s : Table) (cur : SlotId) (pid : Int) (c : SlotId) : Decidable (s.Matches cur pid c) :=
  inferInstanceAs (Decidable (_ ∧ _ ∧ _))

/-- `wait4` returns the zombie `c`. -/
def reap (s : Table) (cur c : SlotId) : Table :=
  { s.free c with
    returned := fun n => if n = (s.proc c).born then
      ((s.proc cur).born, (s.proc c).pid, (s.proc c).exitCode) :: s.returned n else s.returned n
    spent := fun n => if n = (s.proc c).born then s.held c else s.spent n }

@[grind =] lemma reap_proc (s : Table) (cur c j : SlotId) :
    (s.reap cur c).proc j = (s.free c).proc j := rfl

/-- One pass of the loop of `wait4`: the first zombie is returned, unless its status cannot be
copied out. -/
def wait4 (s : Table) (cur : SlotId) (pid : Int) (nohang copied : Bool) : Table :=
  match (List.finRange Signal.nproc).find? fun c => s.Matches cur pid c ∧
    (s.proc c).state = .zombie with
  | some c => if copied then s.reap cur c else s
  | none =>
    if (∃ c, s.Matches cur pid c) ∧ ¬nohang then
      s.set cur { s.proc cur with state := .sleeping, waits := some pid }
    else s

/-- The process that `terminal_claim_input` finds. -/
def find (s : Table) (pid : Int) : Option SlotId :=
  (List.finRange Signal.nproc).find? fun i => (s.proc i).pid = pid ∧ (s.proc i).state ≠ .unused

/-- `terminal_claim_input` -/
def claim (s : Table) (pid : Int) : Table :=
  match s.find pid with
  | none => s
  | some i =>
    if (∃ e ∈ s.owners, e.1 = i) ∨ s.owners.length = Signal.nproc then s
    else { s with owners := s.owners ++ [(i, (s.proc i).born)] }

/-- `terminal_forget_process`, at the beginning of `exit` -/
def startExit (s : Table) (cur : SlotId) : Table :=
  { s.set cur { s.proc cur with exiting := true } with owners := s.owners.eraseP fun e =>
    e.1 = cur }

/-- `terminal_release_input` -/
def interrupt (s : Table) : Table :=
  { s.owners.foldl (fun t e => t.wakeup e.1) s with
    owners := []
    sigints := s.sigints ++ s.owners.map fun e => (e.2, (s.proc e.1).born) }

/-- The process makes system calls. -/
def Calls (s : Table) (i : SlotId) : Prop :=
  (s.proc i).state = .running ∧ (s.proc i).exiting = false

end Table

open Table (wakeup setState fork exit startExit interrupt)

inductive Step (s : Table) : SlotId × Act → Table → Prop
  | dispatch (h : (s.proc i).state = .runnable) : Step s (i, .dispatch) (s.setState i .running)
  | wake (h : (s.proc i).state = .sleeping) : Step s (i, .wake) (s.setState i .runnable)
  | yield (h : (s.proc i).state = .running) : Step s (i, .yield) (s.setState i .runnable)
  | sleep (h : (s.proc i).state = .running) :
    Step s (i, .sleep) (s.set i { s.proc i with state := .sleeping, waits := none })
  | fork (h : s.Calls i) : Step s (i, .fork copied) (s.fork i copied)
  | exec (h : s.Calls i) : Step s (i, .exec) (s.exec i)
  | startExit (h : s.Calls i) : Step s (i, .startExit) (s.startExit i)
  | exit (h : (s.proc i).state = .running ∧ (s.proc i).exiting = true) :
      Step s (i, .exit code) (s.exit i code)
  | wait4 (h : s.Calls i) : Step s (i, .wait4 pid nohang copied) (s.wait4 i pid nohang copied)
  | claim (h : s.Calls i) : Step s (i, .claim pid) (s.claim pid)
  | interrupt : Step s (i, .interrupt) s.interrupt

/-- The first process runs. -/
def init : Table where
  proc i :=
    if i = 0 then ⟨.running, 1, 1, none, none, 0, false⟩ else ⟨.unused, 0, 0, none, none, 0, false⟩
  nextPid := 2
  owners := []
  layout _ := false
  held i r := if i = 0 then fresh 0 r else none
  objects := 3
  sigints := []
  given _ _ := False
  exited _ := none
  returned _ := []
  spent _ _ := none
  freed _ := 0
  left _ := False

/-- What `wakeup` does to a table. -/
def Wakes (s t : Table) : Prop :=
  { s with proc := t.proc } = t ∧
    ∀ j, t.proc j = s.proc j ∨ (s.proc j).state = .sleeping ∧ t.proc j =
      { s.proc j with state := .runnable }

lemma wakes_wakeup (s : Table) (i : SlotId) : Wakes s (s.wakeup i) := by
  unfold Wakes wakeup
  split
  · exact ⟨rfl, by grind [setState, Table.set]⟩
  · exact ⟨rfl, fun _ => .inl rfl⟩

lemma wakes_foldl (s : Table) (l : List (SlotId × Nat)) :
    Wakes s (l.foldl (fun t e => t.wakeup e.1) s) := by
  induction l generalizing s with
  | nil => exact ⟨rfl, fun _ => .inl rfl⟩
  | cons e l ih =>
    have h1 := wakes_wakeup s e.1
    have h2 := ih (s.wakeup e.1)
    grind [Wakes]

/-- What a step does to the table. -/
inductive Effect (s : Table) (a : SlotId × Act) : Table → Prop
  | same : Effect s a s
  | move (h : (s.proc i).state ≠ .unused ∧ (s.proc i).state ≠ .zombie)
      (hst : st = .running ∨ st = .runnable) :
    Effect s a (s.setState i st)
  | sleep (h : (s.proc i).state = .running)
      (hw : ∀ pid c, w = some pid → s.Matches i pid c → (s.proc c).state ≠ .zombie) :
    Effect s a (s.set i { s.proc i with state := .sleeping, waits := w })
  | alloc (h : s.Calls i) (hj : (s.proc j).state = .unused) : Effect s a (s.alloc i j)
  | drop (h : s.Calls i) (hj : (s.proc j).state = .unused) : Effect s a ((s.alloc i j).free j)
  | exec (h : s.Calls i) : Effect s a (s.exec i)
  | startExit (h : s.Calls i) : Effect s a (s.startExit i)
  /-- The parent of the process does not sleep in `wait4` any more. -/
  | exit (ha : a = (i, .exit code)) (h : (s.proc i).state = .running ∧ (s.proc i).exiting = true)
      (hw : Wakes (s.reparent i) u) (hq : ∀ q, ((s.reparent i).proc i).parent = some q →
        (u.proc q).state = .sleeping → (u.proc q).waits = none) :
    Effect s a { u.set i { u.proc i with state := .zombie, exitCode := code } with
      exited := fun n => if n = (s.proc i).born then some code else s.exited n }
  | reap (hc : (s.proc c).parent = some i) (hz : (s.proc c).state = .zombie) :
      Effect s a (s.reap i c)
  | claim (ha : a.2 = .claim pid) (hi : s.find pid = some i) (hn : ∀ e ∈ s.owners, e.1 ≠ i) :
    Effect s a { s with owners := s.owners ++ [(i, (s.proc i).born)] }
  | interrupt (hw : Wakes s u) : Effect s a { u with
      owners := []
      sigints := s.sigints ++ s.owners.map fun e => (e.2, (s.proc e.1).born) }

variable {s t : Table} {a : SlotId × Act} {cur c j : SlotId} {code pid : Int}

lemma Step.effect (hs : Step s a t) : Effect s a t := by
  cases hs with
  | dispatch hi => exact .move (by simp [hi]) (.inl rfl)
  | wake hi | yield hi => exact .move (by simp [hi]) (.inr rfl)
  | sleep hi => exact .sleep hi nofun
  | fork hi =>
    unfold Table.fork
    split
    · exact .same
    · rename_i j hj
      have hj := find?_some hj
      rw [decide_eq_true_eq] at hj
      split
      · exact .alloc hi hj
      · exact .drop hi hj
  | exec hi => exact .exec hi
  | startExit hi => exact .startExit hi
  | exit hi =>
    refine .exit rfl hi ?_ ?_
    · split
      · exact ⟨rfl, fun _ => .inl rfl⟩
      · exact wakes_wakeup ..
    · grind [wakeup, setState]
  | wait4 hi =>
    unfold Table.wait4
    split
    · rename_i c hc
      have hc := find?_some hc
      rw [decide_eq_true_eq] at hc
      split
      · exact .reap hc.1.2.1 hc.2
      · exact .same
    · rename_i hc
      split
      · refine .sleep hi.1 ?_
        rintro _ c ⟨⟩ hm hz
        exact find?_eq_none.mp hc c (mem_finRange c) (decide_eq_true ⟨hm, hz⟩)
      · exact .same
  | claim hi =>
    unfold Table.claim
    split
    · exact .same
    · rename_i i hi
      split
      · exact .same
      · rename_i hn
        exact .claim rfl hi fun e he hei => hn (.inl ⟨e, he, hei⟩)
  | interrupt => exact .interrupt (wakes_foldl s s.owners)

/-! ## No exit is lost -/

/-- No process sleeps in `wait4` while it has a zombie that it waits for. -/
def NoLostExit (s : Table) : Prop :=
  ∀ i pid c, (s.proc i).state = .sleeping → (s.proc i).waits = some pid → s.Matches i pid c →
    (s.proc c).state ≠ .zombie

/-- The condition on an `exit`: the first process does not wait for a zombie that it is about to
get, unless it is the parent of the process and is woken up. -/
def Handover (s : Table) (a : SlotId × Act) : Prop :=
  ∀ code pid c, a.2 = .exit code → (s.proc 0).state = .sleeping → (s.proc 0).waits = some pid →
    (s.proc c).parent = some a.1 → (s.proc c).state = .zombie → (pid = -1 ∨ (s.proc c).pid = pid) →
    (s.proc a.1).parent = some 0

lemma NoLostExit.keep (h : NoLostExit s) (hz : ∀ c, (t.proc c).state = .zombie →
    t.proc c = s.proc c)
    (hw : ∀ i pid, (t.proc i).state = .sleeping → (t.proc i).waits = some pid →
      (s.proc i).state = .sleeping ∧ (s.proc i).waits = some pid) : NoLostExit t := by
  intro i pid c hi hp hm hc
  obtain ⟨hi, hp⟩ := hw i pid hi hp
  unfold Table.Matches at hm
  rw [hz c hc] at hm hc
  exact h i pid c hi hp hm hc

lemma NoLostExit.step (h : NoLostExit s) (ha : Handover s a) (hs : Step s a t) : NoLostExit t := by
  cases hs.effect with
  | same => exact h
  | move hi hst => refine h.keep ?_ ?_ <;> grind [setState]
  | sleep hi hz =>
    rintro i pid c hi' hp ⟨hci, hpar, hpid⟩ hc
    have hic := h i pid c
    have hcur := hz pid c
    grind [Table.Matches]
  | alloc hi hj | drop hi hj | reap hi hj => refine h.keep ?_ ?_ <;> grind
  | exec hi | startExit hi => refine h.keep ?_ ?_ <;> grind
      [Table.exec, startExit, Table.set, Table.Calls]
  | @exit cur code u hact hi hw hq =>
    obtain ⟨-, hu⟩ := hw
    rintro i pid c hi hp ⟨hci, hpar, hpid⟩ hc
    simp only [Table.set_proc] at hi hp hpar hpid hc
    have hic : i ≠ cur := by grind
    have hsi : (s.proc i).state = .sleeping ∧ (s.proc i).waits = some pid := by grind
    by_cases hcc : c = cur
    · -- the parent of the process has been woken up
      grind
    · have huc : u.proc c = (s.reparent cur).proc c := by grind
      by_cases hcp : (s.proc c).parent = some cur
      · have := ha code pid c (by rw [hact])
        grind
      · exact h i pid c hsi.1 hsi.2 ⟨hci, by grind⟩ (by grind)
  | claim => exact h
  | interrupt hw =>
    obtain ⟨-, hw⟩ := hw
    refine h.keep ?_ ?_ <;> grind

variable {acts : List (SlotId × Act)}

/-- No exit is lost in a run in which the first process never waits for a zombie that it gets. -/
theorem no_exit_lost (hrun : Run (fun s a t => Handover s a ∧ Step s a t) init acts s) :
    NoLostExit s := by
  refine hrun.invariant NoLostExit (fun s a t h hs => h.step hs.1 hs.2) ?_
  intro i pid c hi
  grind [init]

set_option maxRecDepth 4000 in
theorem no_exit_lost_child :
    ∃ t, Run (fun s a t => Handover s a ∧ Step s a t) init [(0, .fork true),
    (0, .wait4 (-1) false true), (1, .dispatch), (1, .startExit), (1, .exit 0)] t ∧
      NoLostExit t := by
  refine Exists.imp (fun t h => ⟨h, no_exit_lost h⟩) ?_
  exact ⟨_, .cons ⟨fun _ _ _ h => (nomatch h), .fork ⟨rfl, rfl⟩⟩ <|
    .cons ⟨fun _ _ _ h => (nomatch h), .wait4 ⟨rfl, rfl⟩⟩ <|
      .cons ⟨fun _ _ _ h => (nomatch h), .dispatch rfl⟩ <|
    .cons ⟨fun _ _ _ h => (nomatch h), .startExit ⟨rfl, rfl⟩⟩ <|
    .cons ⟨fun _ _ _ _ _ _ _ _ _ => rfl, .exit ⟨rfl, rfl⟩⟩ (.nil _)⟩

set_option maxRecDepth 4000 in
/-- The first process sleeps in `wait4(-1)` and gets the zombie of a grandchild that exits. -/
theorem inherited_zombie_unnoticed :
    ∃ t, Run Step init [(0, .fork true), (0, .wait4 (-1) false true),
      (1, .dispatch), (1, .fork true), (1, .yield), (2, .dispatch), (2, .fork true), (2, .yield),
      (3, .dispatch), (3, .startExit), (3, .exit 0), (2, .dispatch), (2, .startExit),
        (2, .exit 0)] t ∧
    ¬NoLostExit t :=
  ⟨_, .cons (.fork ⟨rfl, rfl⟩) <| .cons (.wait4 ⟨rfl, rfl⟩) <| .cons (.dispatch rfl) <|
    .cons (.fork ⟨rfl, rfl⟩) <|
    .cons (.yield rfl) <| .cons (.dispatch rfl) <| .cons (.fork ⟨rfl, rfl⟩) <| .cons (.yield rfl) <|
    .cons (.dispatch rfl) <| .cons (.startExit ⟨rfl, rfl⟩) <| .cons (.exit ⟨rfl, rfl⟩) <|
      .cons (.dispatch rfl) <|
    .cons (.startExit ⟨rfl, rfl⟩) <| .cons (.exit ⟨rfl, rfl⟩) <| .nil _,
    fun h => h 0 (-1) 3 rfl rfl ⟨nofun, rfl, .inl rfl⟩ rfl⟩

/-! ## Owners of the terminal -/

/-- The owners are processes that were claimed and have not begun to exit. -/
structure Owned (s : Table) : Prop where
  nodup : (s.owners.map Prod.fst).Nodup
  live : ∀ e ∈ s.owners, (s.proc e.1).born = e.2 ∧ (s.proc e.1).state ≠ .unused ∧
    (s.proc e.1).exiting = false
  exiting : ∀ i, (s.proc i).state = .zombie → (s.proc i).exiting = true
  sigints : ∀ x ∈ s.sigints, x.1 = x.2

/-- The condition on a claim: the process that is found has not begun to exit. -/
def ClaimsLive (s : Table) (a : SlotId × Act) : Prop :=
  ∀ pid i, a.2 = .claim pid → s.find pid = some i → (s.proc i).exiting = false

lemma Owned.keep (h : Owned s) (ho : t.owners = s.owners) (hi : t.sigints = s.sigints)
    (hp : ∀ i, (s.proc i).exiting = false → (s.proc i).state ≠ .unused →
      (t.proc i).born = (s.proc i).born ∧ (t.proc i).state ≠ .unused ∧ (t.proc i).exiting = false)
    (he : ∀ i, (t.proc i).state = .zombie → (t.proc i).exiting = true) : Owned t := by
  refine ⟨by rw [ho]; exact h.nodup, ?_, he, by rw [hi]; exact h.sigints⟩
  intro e hmem
  rw [ho] at hmem
  have := h.live e hmem
  grind

lemma ne_of_mem_eraseP {l : List (SlotId × Nat)} {e : SlotId × Nat} (hl : (l.map Prod.fst).Nodup)
    (he : e ∈ l.eraseP fun e => e.1 = cur) : e.1 ≠ cur := by
  induction l with
  | nil => cases he
  | cons x l ih => grind

lemma Owned.step (h : Owned s) (ha : ClaimsLive s a) (hs : Step s a t) : Owned t := by
  have hz := h.exiting
  cases hs.effect with
  | same => exact h
  | move hi hst => refine h.keep rfl rfl ?_ ?_ <;> grind [setState]
  | sleep hi | alloc hi hj | drop hi hj | reap hi hj => refine h.keep rfl rfl ?_ ?_ <;> grind
  | exec hi => exact ⟨h.nodup, h.live, hz, h.sigints⟩
  | startExit hi =>
    refine ⟨h.nodup.sublist (eraseP_sublist.map _), ?_, ?_, h.sigints⟩
    · intro e he
      have hne := ne_of_mem_eraseP h.nodup he
      have hl := h.live e (mem_of_mem_eraseP he)
      grind [startExit, Table.set]
    · grind [startExit, Table.set]
  | exit hact hi hw =>
    obtain ⟨hu, hw⟩ := hw
    refine h.keep ?_ ?_ ?_ ?_ <;> grind [Table.set, Table.reparent]
  | claim hact hf hn =>
    have hi := ha _ _ hact hf
    refine ⟨?_, ?_, hz, h.sigints⟩
    · have := h.nodup
      grind
    · have := h.live
      grind [Table.find]
  | interrupt hw =>
    obtain ⟨hu, hw⟩ := hw
    refine ⟨nodup_nil, nofun, ?_, ?_⟩
    · intro j
      have := hw j
      grind
    · have := h.live
      have := h.sigints
      grind

/-- The list of owners never overflows, and a `SIGINT` goes to the process that was claimed. -/
theorem claimed_interrupted (hrun : Run (fun s a t => ClaimsLive s a ∧ Step s a t) init acts s) :
    (s.owners.map Prod.fst).Nodup ∧ s.owners.length ≤ Signal.nproc ∧
    (∀ e ∈ s.owners, (s.proc e.1).born = e.2 ∧ (s.proc e.1).state ≠ .unused ∧
      (s.proc e.1).state ≠ .zombie) ∧
    ∀ x ∈ s.sigints, x.1 = x.2 := by
  have hinit : Owned init := ⟨nodup_nil, nofun, by grind [init], nofun⟩
  have h := hrun.invariant Owned (fun s a t h hs => h.step hs.1 hs.2) hinit
  refine ⟨h.nodup, ?_, ?_, h.sigints⟩
  · have := h.nodup.length_le_card
    simpa using this
  · intro e he
    have hl := h.live e he
    have hx := h.exiting e.1
    grind

theorem claimed_interrupted_child :
    ∃ t, Run (fun s a t => ClaimsLive s a ∧ Step s a t) init [(0, .fork true),
    (0, .claim 2), (0, .interrupt)] t ∧ ∀ x ∈ t.sigints, x.1 = x.2 := by
  refine Exists.imp (fun t h => ⟨h, (claimed_interrupted h).2.2.2⟩) ?_
  exact ⟨_, .cons ⟨fun _ _ h => (nomatch h), .fork ⟨rfl, rfl⟩⟩ <|
    .cons ⟨by rintro _ _ ⟨⟩ ⟨⟩; rfl, .claim ⟨rfl, rfl⟩⟩ <|
    .cons ⟨fun _ _ h => (nomatch h), .interrupt⟩ (.nil _)⟩

/-- A zombie is claimed and its slot used again: the `SIGINT` goes to another process. -/
theorem reused_slot_interrupted : ∃ t, Run Step init [(0, .fork true), (0, .yield), (1, .dispatch),
    (1, .startExit), (1, .exit 0), (0, .dispatch), (0, .claim 2), (0, .wait4 (-1) false true),
    (0, .fork true), (0, .interrupt)] t ∧ t.sigints = [(2, 3)] :=
  ⟨_, .cons (.fork ⟨rfl, rfl⟩) <| .cons (.yield rfl) <| .cons (.dispatch rfl) <|
    .cons (.startExit ⟨rfl, rfl⟩) <| .cons (.exit ⟨rfl, rfl⟩) <| .cons (.dispatch rfl) <|
    .cons (.claim ⟨rfl, rfl⟩) <| .cons (.wait4 ⟨rfl, rfl⟩) <| .cons (.fork ⟨rfl, rfl⟩) <|
    .cons .interrupt (.nil _), rfl⟩

/-! ## Parents, numbers and exit codes -/

/-- A process that has not been returned has a parent that has not exited. -/
structure Family (s : Table) : Prop where
  first : (s.proc 0).state ≠ .unused ∧ (s.proc 0).state ≠ .zombie
  parent : ∀ i p, (s.proc i).parent = some p → (s.proc p).state ≠ .unused ∧
    (s.proc p).state ≠ .zombie ∧ s.given (s.proc p).born (s.proc i).born
  orphan : ∀ i, (s.proc i).state ≠ .unused → i = 0 ∨ (s.proc i).parent ≠ none
  pid : ∀ i, (s.proc i).state ≠ .unused → (s.proc i).pid = getPid (s.proc i).born ∧
    (s.proc i).born < s.nextPid ∧ s.returned (s.proc i).born = []
  born : ∀ i j, (s.proc i).state ≠ .unused → (s.proc j).state ≠ .unused →
    (s.proc i).born = (s.proc j).born → i = j
  zombie : ∀ i, (s.proc i).state = .zombie → s.exited (s.proc i).born = some (s.proc i).exitCode
  fresh : ∀ n, s.nextPid ≤ n → s.returned n = []
  returned : ∀ n, s.returned n = [] ∨
    ∃ w code, s.returned n = [(w, getPid n, code)] ∧ s.given w n ∧ s.exited n = some code

/-- The state and the code may only change while the process lives. -/
def Alike (p q : Slot) : Prop :=
  q.pid = p.pid ∧ q.born = p.born ∧ q.parent = p.parent ∧ q.exitCode = p.exitCode ∧
    (q.state = .unused ↔ p.state = .unused) ∧ (q.state = .zombie ↔ p.state = .zombie)

section
variable (h : Family s)
include h

lemma Family.keep (hn : t.nextPid = s.nextPid) (hg : t.given = s.given) (he : t.exited = s.exited)
    (hr : t.returned = s.returned) (hp : ∀ i, Alike (s.proc i) (t.proc i)) : Family t := by
  obtain ⟨h1, h2, h3, h4, h5, h6, h7, h8⟩ := h
  unfold Alike at hp
  rw [← hn, ← hr] at *
  constructor <;> grind

lemma Family.alloc (hj : (s.proc j).state = .unused) (hi : s.Calls cur) :
    Family (s.alloc cur j) := by
  obtain ⟨h1, h2, h3, h4, h5, h6, h7, h8⟩ := h
  obtain ⟨hi, -⟩ := hi
  constructor <;> simp only [Table.alloc, Table.set] <;> grind

lemma Family.free (hj : j ≠ 0) (hc : ∀ i, (s.proc i).parent ≠ some j) : Family (s.free j) := by
  obtain ⟨h1, h2, h3, h4, h5, h6, h7, h8⟩ := h
  constructor <;> simp only [Table.free, Table.set] <;> grind

lemma Family.wakes (hw : Wakes s t) : Family t := by
  obtain ⟨ht, hw⟩ := hw
  rw [← ht]
  exact h.keep rfl rfl rfl rfl (by grind [Alike])

lemma Family.reparent : Family (s.reparent cur) := by
  obtain ⟨h1, h2, h3, h4, h5, h6, h7, h8⟩ := h
  constructor <;> simp only [Table.reparent] <;> grind

lemma Family.exit {u : Table} (hi : (s.proc cur).state = .running) (hcur : cur ≠ 0)
    (hw : Wakes (s.reparent cur) u) :
    Family { u.set cur { u.proc cur with state := .zombie, exitCode := code } with
      exited := fun n => if n = (s.proc cur).born then some code else s.exited n } := by
  have hborn : (s.proc cur).born = (u.proc cur).born := by grind [Wakes]
  have hrun : (u.proc cur).state = .running := by grind [Wakes]
  have hchild : ∀ i, (u.proc i).parent ≠ some cur := by grind [Wakes]
  have hex : s.exited = u.exited := by rw [← hw.1]; rfl
  obtain ⟨h1, h2, h3, h4, h5, h6, h7, h8⟩ := h.reparent.wakes hw
  rw [hborn, hex]
  constructor <;> simp only [Table.set] <;> grind

lemma Family.reap (hm : (s.proc c).parent = some cur) (hz : (s.proc c).state = .zombie) :
    Family (s.reap cur c) := by
  have hc : c ≠ 0 := by grind [h.first]
  obtain ⟨h1, h2, h3, h4, h5, h6, h7, h8⟩ := h
  constructor <;> simp only [Table.reap, Table.free, Table.set] <;> grind

lemma Family.step (ha : ∀ code, a ≠ (0, .exit code)) (hs : Step s a t) : Family t := by
  cases hs.effect with
  | same => exact h
  | move hi hst => exact h.keep rfl rfl rfl rfl (by grind [Alike, setState])
  | sleep hi => exact h.keep rfl rfl rfl rfl (by grind [Alike])
  | alloc hi hj => exact h.alloc hj hi
  | drop hi hj =>
    refine (h.alloc hj hi).free ?_ ?_
    · grind [h.first]
    · have := h.parent
      grind [Table.Calls]
  | exec hi => exact h.keep rfl rfl rfl rfl (by grind [Alike, Table.exec])
  | startExit hi =>
      exact h.keep rfl rfl rfl rfl (by grind [Alike, startExit, Table.set, Table.Calls])
  | exit hact hi hw => exact h.exit hi.1 (fun hc => ha _ (hc ▸ hact)) hw
  | reap hc hz => exact h.reap hc hz
  | claim => exact h.keep rfl rfl rfl rfl (by grind [Alike])
  | interrupt hw =>
    obtain ⟨hu, hw⟩ := hw
    rw [← hu]
    exact h.keep rfl rfl rfl rfl (by grind [Alike])

end

lemma family_init : Family init := by
  have hpid : 1 = getPid 1 := rfl
  constructor <;> simp only [init] <;> grind

/-! ## Stacks, page tables and contexts -/

/-- An allocation is held in one place, or it was freed once, or `exec` has left it. -/
structure Stock (s : Table) : Prop where
  held : ∀ i r n, s.held i r = some n → n < s.objects ∧ s.freed n = 0 ∧ ¬s.left n
  single : ∀ i j r q n, s.held i r = some n → s.held j q = some n → i = j ∧ r = q
  unused : ∀ i r, s.held i r = none ↔ (s.proc i).state = .unused
  freed : ∀ n, n < s.objects → s.freed n = 1 ∧ ¬s.left n ∨ s.freed n = 0 ∧
    s.left n ∨ ∃ i r, s.held i r = some n
  fresh : ∀ n, s.objects ≤ n → s.freed n = 0 ∧ ¬s.left n

lemma Stock.keep (h : Stock s) (ho : t.objects = s.objects) (hf : t.freed = s.freed)
    (hl : t.left = s.left)
    (hh : t.held = s.held) (hp : ∀ i, (t.proc i).state = .unused ↔ (s.proc i).state = .unused) :
    Stock t := by
  obtain ⟨h1, h2, h3, h4, h5⟩ := h
  rw [← ho, ← hf, ← hl, ← hh] at *
  exact ⟨h1, h2, fun i r => (h3 i r).trans (hp i).symm, h4, h5⟩

lemma Stock.alloc (h : Stock s) (hj : (s.proc j).state = .unused) : Stock (s.alloc cur j) := by
  obtain ⟨h1, h2, h3, h4, h5⟩ := h
  constructor <;> simp only [Table.alloc, Table.set]
  case freed =>
    intro n hn
    by_cases hlt : n < s.objects
    · obtain hf | hl | ⟨i, r, hr⟩ := h4 n hlt
      · exact .inl hf
      · exact .inr (.inl hl)
      · exact .inr (.inr ⟨i, r, by grind⟩)
    · obtain rfl | rfl | rfl : n = s.objects ∨ n = s.objects + 1 ∨ n = s.objects + 2 := by omega
      · exact .inr (.inr ⟨j, .kstack, if_pos rfl⟩)
      · exact .inr (.inr ⟨j, .pagetable, if_pos rfl⟩)
      · exact .inr (.inr ⟨j, .context, if_pos rfl⟩)
  case held =>
    intro i r
    cases r <;> grind [ProcTable.fresh]
  case single =>
    intro i k r q
    cases r <;> cases q <;> grind [ProcTable.fresh]
  case unused =>
    intro i r
    cases r <;> grind [ProcTable.fresh]
  case fresh => grind

lemma Stock.free (h : Stock s) : Stock (s.free j) := by
  obtain ⟨h1, h2, h3, h4, h5⟩ := h
  constructor <;> simp only [Table.free, Table.set, countP_cons, countP_nil]
  case freed =>
    intro n hn
    obtain hf | hl | ⟨i, r, hr⟩ := h4 n hn
    · grind
    · grind
    · by_cases hij : i = j
      · cases r <;> grind
      · exact .inr (.inr ⟨i, r, by grind⟩)
  all_goals grind

lemma Stock.exec (h : Stock s) (hi : s.Calls cur) : Stock (s.exec cur) := by
  obtain ⟨h1, h2, h3, h4, h5⟩ := h
  obtain ⟨hi, -⟩ := hi
  constructor <;> simp only [Table.exec] <;> grind

lemma Stock.step (h : Stock s) (hs : Step s a t) : Stock t := by
  cases hs.effect with
  | same => exact h
  | move hi hst => exact h.keep rfl rfl rfl rfl (by grind [setState])
  | sleep hi => exact h.keep rfl rfl rfl rfl (by grind)
  | alloc hi hj => exact h.alloc hj
  | drop hi hj => exact (h.alloc hj).free
  | exec hi => exact h.exec hi
  | startExit hi => exact h.keep rfl rfl rfl rfl (by grind [startExit, Table.set])
  | exit hact hi hw =>
    obtain ⟨hu, hw⟩ := hw
    rw [← hu]
    exact h.keep rfl rfl rfl rfl (by grind [Table.set])
  | reap hc hz => exact h.free.keep rfl rfl rfl rfl fun _ => .rfl
  | claim => exact h.keep rfl rfl rfl rfl fun _ => .rfl
  | interrupt hw =>
    obtain ⟨hu, hw⟩ := hw
    rw [← hu]
    exact h.keep rfl rfl rfl rfl (by grind)

lemma stock_init : Stock init := by
  -- the first process is allocated in an empty table
  have h : Stock { init with
      proc := fun _ => ⟨.unused, 0, 0, none, none, 0, false⟩, held := fun _ _ =>
        none, objects := 0 } :=
    ⟨nofun, nofun, fun _ _ => ⟨fun _ => rfl, fun _ => rfl⟩, nofun, fun _ _ => ⟨rfl, id⟩⟩
  refine (@Stock.alloc _ 0 0 h rfl).keep rfl rfl rfl rfl ?_
  grind [init]

/-- What a returned process held was freed once. -/
def Spent (s : Table) : Prop :=
  ∀ n, s.returned n ≠ [] → ∀ r, ∃ m, s.spent n r = some m ∧ s.freed m = 1

lemma Stock.free_held (h : Stock s) (hr : s.held j r = some n) : (s.free j).freed n = 1 := by
  have h1 := h.held
  have h2 := h.single
  simp only [Table.free, countP_cons, countP_nil]
  cases r <;> grind

lemma Stock.free_freed (h : Stock s) (hn : s.freed n = 1) : (s.free j).freed n = 1 := by
  have h1 := h.held
  simp only [Table.free, countP_cons, countP_nil]
  grind

lemma Spent.step (h : Spent s) (hk : Stock s) (hs : Step s a t) : Spent t := by
  cases hs.effect with
  | same | move | sleep | alloc | startExit | claim => exact h
  | drop hi hj =>
    intro n hn r
    obtain ⟨m, hm, hf⟩ := h n hn r
    exact ⟨m, hm, (hk.alloc hj).free_freed hf⟩
  | @exec i hi =>
    intro n hn r
    obtain ⟨m, hm, hf⟩ := h n hn r
    refine ⟨m, hm, ?_⟩
    -- what was freed before is not held any more
    have hno : s.held i .pagetable ≠ some m := fun hheld => by grind [hk.held i _ m hheld]
    simp [Table.exec, hf, hno]
  | exit _ _ hw | interrupt hw =>
    obtain ⟨hu, -⟩ := hw
    rw [← hu]
    exact h
  | @reap c i hc hz =>
    intro n hn r
    by_cases hborn : n = (s.proc c).born
    · have hheld : s.held c r ≠ none := fun hnone => by grind [hk.unused c r]
      obtain ⟨m, hm⟩ := Option.ne_none_iff_exists'.mp hheld
      exact ⟨m, by simp [Table.reap, hborn, hm], hk.free_held hm⟩
    · obtain ⟨m, hm, hf⟩ := h n (by simpa [Table.reap, hborn] using hn) r
      exact ⟨m, by simp [Table.reap, hborn, hm], hk.free_freed hf⟩

/-- In every run in which the first process does not exit, parents are there, numbers are distinct
as long as they are `int`s, each process is returned once, to a parent that it had, and the stack,
page table and context that it had then are freed once. Every allocation is held in one place or
freed once, except the page tables that `exec` leaves. -/
theorem table_consistent
    (hrun : Run (fun s a t => (∀ code, a ≠ (0, .exit code)) ∧ Step s a t) init acts s) :
    (∀ i, i ≠ 0 → (s.proc i).state ≠ .unused → ∃ p, (s.proc i).parent = some p ∧
      (s.proc p).state ≠ .unused) ∧
    (s.nextPid ≤ 2 ^ 31 → ∀ i j, (s.proc i).state ≠ .unused → (s.proc j).state ≠ .unused →
      (s.proc i).pid = (s.proc j).pid → i = j) ∧
    (∀ n, s.returned n = [] ∨
      ∃ w code, s.returned n = [(w, getPid n, code)] ∧ s.given w n ∧ s.exited n = some code) ∧
    (∀ n, s.returned n ≠ [] → ∀ r, ∃ m, s.spent n r = some m ∧ s.freed m = 1) ∧
    (∀ i, (s.proc i).state = .unused → ∀ r, s.held i r = none) ∧
    ∀ n, n < s.objects → (s.freed n = 1 ∨ s.freed n = 0 ∧ s.left n) ∧ (∀ i r, s.held i r ≠ some n) ∨
      s.freed n = 0 ∧ ∃ i r, s.held i r = some n := by
  obtain ⟨hf, hs, hspent⟩ := hrun.invariant (fun s => Family s ∧ Stock s ∧ Spent s)
    (fun s a t h hs => ⟨h.1.step hs.1 hs.2, h.2.1.step hs.2, h.2.2.step h.2.1 hs.2⟩)
    ⟨family_init, stock_init, fun _ hn => absurd rfl hn⟩
  refine ⟨?_, ?_, hf.returned, hspent, fun i hi r => (hs.unused i r).mpr hi, ?_⟩
  · intro i hi hu
    cases hp : (s.proc i).parent with
    | none => exact absurd hp ((hf.orphan i hu).resolve_left hi)
    | some p => exact ⟨p, rfl, (hf.parent i p hp).1⟩
  · intro hn i j hi hj hp
    have hpid : ∀ i, (s.proc i).state ≠ .unused → (s.proc i).pid = (s.proc i).born := by
      intro i hi
      obtain ⟨hi, hlt, -⟩ := hf.pid i hi
      rw [hi, getPid_of_lt (by omega)]
    exact hf.born i j hi hj (by grind)
  · intro n hn
    have h₁ := hs.held
    have h₂ := hs.freed n hn
    grind

/-- A child runs a program, exits and is returned. -/
theorem table_consistent_reaped :
    ∃ t, Run (fun s a t => (∀ code, a ≠ (0, .exit code)) ∧ Step s a t) init
    [(0, .fork true), (0, .yield), (1, .dispatch), (1, .exec), (1, .startExit), (1, .exit 3),
      (0, .dispatch), (0, .wait4 2 false true)] t ∧
    t.returned 2 = [(1, 2, 3)] ∧ ∀ r, ∃ m, t.spent 2 r = some m ∧ t.freed m = 1 := by
  have hrun : ∃ t, Run (fun s a t => (∀ code, a ≠ (0, .exit code)) ∧ Step s a t) init
      [(0, .fork true), (0, .yield), (1, .dispatch), (1, .exec), (1, .startExit), (1, .exit 3),
        (0, .dispatch), (0, .wait4 2 false true)] t ∧ t.returned 2 = [(1, 2, 3)] :=
    ⟨_, .cons ⟨nofun, .fork ⟨rfl, rfl⟩⟩ <| .cons ⟨nofun, .yield rfl⟩ <|
      .cons ⟨nofun, .dispatch rfl⟩ <| .cons ⟨nofun, .exec ⟨rfl, rfl⟩⟩ <|
      .cons ⟨nofun, .startExit ⟨rfl, rfl⟩⟩ <|
      .cons ⟨fun _ h => (nomatch h), .exit ⟨rfl, rfl⟩⟩ <| .cons ⟨nofun, .dispatch rfl⟩ <|
      .cons ⟨nofun, .wait4 ⟨rfl, rfl⟩⟩ (.nil _), by decide +kernel⟩
  obtain ⟨t, hrun, hret⟩ := hrun
  exact ⟨t, hrun, hret, (table_consistent hrun).2.2.2.1 2 (by simp [hret])⟩

end FrostVista.Kernel.ProcTable
