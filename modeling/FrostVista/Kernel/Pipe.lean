import FrostVista.Kernel.Process
import FrostVista.Library.Ring
import FrostVista.Library.Run

/-!
# Pipes

`pipe_read`, `pipe_write` and `pipe_close` of `kernel/core/pipe.c`, as `sys_read` and `sys_write`
call them: the size of a request is any `int`, and a negative one is refused. A call holds the lock
of the pipe from its start to its return, except while it sleeps; so the calls of several processes
interleave in segments that end with a return or with a sleep. Each segment is a function of the
pipe and of the outcomes of the user copies, which are arbitrary. Next to the code's state the model
keeps the bytes that entered and left the ring and the results of the finished calls.
-/
namespace FrostVista.Kernel

open Lib Function List Nat

def pipeBufSize : Nat := 512

structure Pipe where
  /-- `buf`, `nread` and `nwrite` -/
  ring : Ring Byte 32
  readable : Bool
  writable : Bool

/-- How a segment ends; a sleeping writer has moved `i` bytes. -/
inductive Outcome where
  | returned (n : Int)
  | sleeping (i : Nat)
  deriving DecidableEq, Repr

/-- The bytes a segment moved, the pipe afterwards and how it ends. -/
structure Segment where
  moved : List Byte
  pipe : Pipe
  outcome : Outcome

/-- The loop of `pipe_read` with `n` rounds left; `copyout i` tells if byte `i` can be copied. -/
def readLoop (copyout : Nat → Bool) : Nat → Nat → Pipe → Segment
  | 0, i, pi => ⟨[], pi, .returned i⟩
  | n + 1, i, pi =>
    if pi.ring.nread = pi.ring.nwrite then ⟨[], pi, .returned i⟩
    else
      let ch := pi.ring.cells (pi.ring.nread.toNat % pipeBufSize)
      if !copyout i then ⟨[], pi, .returned (if i = 0 then -eFault else i)⟩
      else
        let s := readLoop copyout n (i + 1) { pi with ring := pi.ring.pop }
        { s with moved := ch :: s.moved }

/-- `pipe_read` from the test of its waiting loop on. -/
def pipeReadLocked (copyout : Nat → Bool) (size : Nat) (pi : Pipe) : Segment :=
  if pi.ring.nread = pi.ring.nwrite ∧ pi.writable then ⟨[], pi, .sleeping 0⟩
  else readLoop copyout size 0 pi

def pipeRead (copyout : Nat → Bool) (size : Nat) (pi : Pipe) : Segment :=
  if size = 0 then ⟨[], pi, .returned 0⟩ else pipeReadLocked copyout size pi

/-- The loop of `pipe_write` with `n` rounds left; `copyin i` is byte `i` of the user's buffer. -/
def writeLoop (copyin : Nat → Option Byte) : Nat → Nat → Pipe → Segment
  | 0, i, pi => ⟨[], pi, .returned i⟩
  | n + 1, i, pi =>
    if !pi.readable then ⟨[], pi, .returned (if 0 < i then i else -ePipe)⟩
    else if pipeBufSize ≤ (pi.ring.nwrite - pi.ring.nread).toNat then ⟨[], pi, .sleeping i⟩
    else
      match copyin i with
      | none => ⟨[], pi, .returned (if i = 0 then -eFault else i)⟩
      | some ch =>
        let s := writeLoop copyin n (i + 1) { pi with ring := pi.ring.push pipeBufSize ch }
        { s with moved := ch :: s.moved }

/-- `pipe_write` when it has moved `i` bytes. -/
def pipeWrite (copyin : Nat → Option Byte) (size i : Nat) (pi : Pipe) : Segment :=
  writeLoop copyin (size - i) i pi

/-- `sys_read` on the read end. -/
def sysReadPipe (copyout : Nat → Bool) (size : BitVec 32) (pi : Pipe) : Segment :=
  if size.toInt < 0 then ⟨[], pi, .returned (-eInval)⟩ else pipeRead copyout size.toNat pi

/-- `sys_write` on the write end. -/
def sysWritePipe (copyin : Nat → Option Byte) (size : BitVec 32) (pi : Pipe) : Segment :=
  if size.toInt < 0 then ⟨[], pi, .returned (-eInval)⟩ else pipeWrite copyin size.toNat 0 pi

def pipeClose (writable : Bool) (pi : Pipe) : Pipe :=
  if writable then { pi with writable := false } else { pi with readable := false }

/-! ## Interleavings -/

/-- A process has no call on the pipe, or sleeps in one. -/
inductive Thread where
  | idle
  | reading (size : Nat)
  | writing (size i : Nat) (moved : List Byte)

structure PipeState where
  pipe : Pipe
  threads : Nat → Thread
  /-- The bytes that entered the ring. -/
  accepted : List Byte
  /-- The bytes that left the ring for a user buffer. -/
  delivered : List Byte
  /-- The value each finished call returned and the bytes it moved. -/
  calls : List (Int × List Byte)

inductive PipeAction where
  | read (pid : Nat) (size : BitVec 32) (copyout : Nat → Bool)
  | wakeReader (pid : Nat) (copyout : Nat → Bool)
  | write (pid : Nat) (size : BitVec 32) (copyin : Nat → Option Byte)
  | wakeWriter (pid : Nat) (copyin : Nat → Option Byte)
  | close (writable : Bool)

namespace PipeState

variable (s : PipeState)

/-- A reader's segment is over. -/
def afterRead (pid size : Nat) (g : Segment) : PipeState :=
  { s with
    pipe := g.pipe
    delivered := s.delivered ++ g.moved
    threads := Function.update s.threads pid
      (match g.outcome with
        | .returned _ => .idle
        | .sleeping _ => .reading size)
    calls := match g.outcome with
      | .returned n => (n, g.moved) :: s.calls
      | .sleeping _ => s.calls }

/-- A writer's segment is over; `moved` are the bytes of its earlier segments. -/
def afterWrite (pid size : Nat) (moved : List Byte) (g : Segment) : PipeState :=
  { s with
    pipe := g.pipe
    accepted := s.accepted ++ g.moved
    threads := Function.update s.threads pid
      (match g.outcome with
        | .returned _ => .idle
        | .sleeping i => .writing size i (moved ++ g.moved))
    calls := match g.outcome with
      | .returned n => (n, moved ++ g.moved) :: s.calls
      | .sleeping _ => s.calls }

end PipeState

/-- The pipe exists until both ends are closed. -/
def Pipe.open (pi : Pipe) : Prop := pi.readable = true ∨ pi.writable = true

/-- One segment of one process. A sleeping process may wake up at any time. -/
inductive PipeStep : PipeState → PipeAction → PipeState → Prop where
  | read {s : PipeState} {pid : Nat} {size : BitVec 32} {copyout : Nat → Bool} :
      s.pipe.open → s.threads pid = .idle →
      PipeStep s (.read pid size copyout)
        (s.afterRead pid size.toNat (sysReadPipe copyout size s.pipe))
  | wakeReader {s : PipeState} {pid size : Nat} {copyout : Nat → Bool} :
      s.pipe.open → s.threads pid = .reading size →
      PipeStep s (.wakeReader pid copyout)
        (s.afterRead pid size (pipeReadLocked copyout size s.pipe))
  | write {s : PipeState} {pid : Nat} {size : BitVec 32} {copyin : Nat → Option Byte} :
      s.pipe.open → s.threads pid = .idle →
      PipeStep s (.write pid size copyin)
        (s.afterWrite pid size.toNat [] (sysWritePipe copyin size s.pipe))
  | wakeWriter {s : PipeState} {pid size i : Nat} {moved : List Byte}
      {copyin : Nat → Option Byte} :
      s.pipe.open → s.threads pid = .writing size i moved →
      PipeStep s (.wakeWriter pid copyin)
        (s.afterWrite pid size moved (pipeWrite copyin size i s.pipe))
  | close {s : PipeState} {writable : Bool} : s.pipe.open →
      PipeStep s (.close writable) { s with pipe := pipeClose writable s.pipe }

/-- The state `pipe_alloc` leaves, with any bytes in the buffer. -/
def PipeState.init (cells : Nat → Byte) : PipeState where
  pipe := ⟨⟨cells, 0#32, 0#32⟩, true, true⟩
  threads := fun _ => .idle
  accepted := []
  delivered := []
  calls := []

/-! ## One segment -/

def Pipe.contents (pi : Pipe) : List Byte := pi.ring.contents pipeBufSize

/-- The value a call returns for the bytes it moved: their number, or an error if there are none. -/
def Reports (n : Int) (moved : List Byte) : Prop :=
  (n = moved.length ∧ moved.length < 2 ^ 31) ∨ (n < 0 ∧ moved = [])

/-- The segment ends the call, which had moved `i` bytes before it. -/
def Segment.Returns (g : Segment) (i : Nat) : Prop :=
  ∃ r, g.outcome = .returned r ∧ (r = i + g.moved.length ∨ (r < 0 ∧ g.moved = [] ∧ i = 0))

variable {i size : Nat} {pi : Pipe}

lemma Segment.Returns.cons {g : Segment} (h : g.Returns (i + 1)) (ch : Byte) :
    Segment.Returns { g with moved := ch :: g.moved } i := by
  obtain ⟨r, hr, hres | ⟨-, -, hi⟩⟩ := h
  · refine ⟨r, hr, .inl ?_⟩
    simp only [length_cons]
    omega
  · exact absurd hi (succ_ne_zero i)

lemma Segment.returns_now (pi : Pipe) {e : Int} (he : 0 < e) :
    Segment.Returns ⟨[], pi, .returned (if i = 0 then -e else i)⟩ i := by
  refine ⟨_, rfl, ?_⟩
  by_cases hi : i = 0
  · exact .inr ⟨by simpa [hi] using he, rfl, hi⟩
  · exact .inl (by simp [hi])

lemma readLoop_spec (copyout : Nat → Bool) (n i : Nat) (pi : Pipe) :
    pi.contents = (readLoop copyout n i pi).moved ++ (readLoop copyout n i pi).pipe.contents ∧
      (readLoop copyout n i pi).Returns i := by
  fun_induction readLoop copyout n i pi with
  | case1 i pi | case2 n i pi => exact ⟨rfl, _, rfl, .inl (by simp)⟩
  | case3 n i pi hne hcopy => exact ⟨rfl, Segment.returns_now pi (by decide)⟩
  | case4 n i pi hne ch hcopy s ih =>
    have hcount : 0 < pi.ring.count :=
      pos_of_ne_zero fun h => hne (Ring.count_eq_zero.mp h)
    have hpop : pi.contents = ch :: Pipe.contents { pi with ring := pi.ring.pop } :=
      Ring.contents_pop hcount
    refine ⟨?_, ih.2.cons ch⟩
    rw [hpop, ih.1]
    rfl

lemma readLoop_copied (copyout : Nat → Bool) (n i : Nat) (pi : Pipe) :
    ∀ k < (readLoop copyout n i pi).moved.length, copyout (i + k) = true := by
  fun_induction readLoop copyout n i pi with
  | case1 => simp
  | case2 => simp
  | case3 => simp
  | case4 n i pi hne ch hcopy s ih =>
    intro k hk
    cases k with
    | zero => simpa using hcopy
    | succ k =>
      rw [← succ_add_eq_add_succ]
      exact ih k (lt_of_succ_lt_succ hk)

/-- What a segment of a reader does. -/
structure ReadPost (pi : Pipe) (g : Segment) : Prop where
  taken : pi.contents = g.moved ++ g.pipe.contents
  result : g.Returns 0 ∨ (g.outcome = .sleeping 0 ∧ g.moved = [])

section
variable (copyout : Nat → Bool)
include copyout

lemma pipeReadLocked_post (size : Nat) (pi : Pipe) :
    ReadPost pi (pipeReadLocked copyout size pi) := by
  unfold pipeReadLocked
  split
  · exact ⟨rfl, .inr ⟨rfl, rfl⟩⟩
  · have h := readLoop_spec copyout size 0 pi
    exact ⟨h.1, .inl h.2⟩

lemma pipeRead_post (size : Nat) (pi : Pipe) :
    ReadPost pi (pipeRead copyout size pi) := by
  unfold pipeRead
  split
  · exact ⟨rfl, .inl ⟨_, rfl, .inl rfl⟩⟩
  · exact pipeReadLocked_post copyout size pi

lemma sysReadPipe_post (size : BitVec 32) (pi : Pipe) :
    ReadPost pi (sysReadPipe copyout size pi) := by
  unfold sysReadPipe
  split
  · exact ⟨rfl, .inl ⟨_, rfl, .inr ⟨by decide, rfl, rfl⟩⟩⟩
  · exact pipeRead_post copyout size.toNat pi

lemma pipeRead_copied (size : Nat) (pi : Pipe) :
    ∀ k < (pipeRead copyout size pi).moved.length, copyout k = true := by
  unfold pipeRead pipeReadLocked
  split
  · simp
  split
  · simp
  · simpa using readLoop_copied copyout size 0 pi

end

lemma writeLoop_copied (copyin : Nat → Option Byte) (n i : Nat) (pi : Pipe) :
    ∀ k b, (writeLoop copyin n i pi).moved[k]? = some b → copyin (i + k) = some b := by
  fun_induction writeLoop copyin n i pi with
  | case1 => simp
  | case2 => simp
  | case3 => simp
  | case4 => simp
  | case5 n i pi hread hroom ch hcopy s ih =>
    intro k b hk
    cases k with
    | zero =>
      obtain rfl : ch = b := by simpa using hk
      exact hcopy
    | succ k =>
      rw [← succ_add_eq_add_succ]
      exact ih k b (by simpa using hk)

/-- A reader that asks for something gets nothing only from an empty ring without writers. -/
lemma pipeReadLocked_zero (copyout : Nat → Bool) (h : 0 < size) :
    (pipeReadLocked copyout size pi).outcome = .returned 0 ↔
      pi.ring.nread = pi.ring.nwrite ∧ pi.writable = false := by
  obtain ⟨n, rfl⟩ := exists_eq_succ_of_ne_zero h.ne'
  obtain ⟨-, r, hr, hres⟩ := readLoop_spec copyout n 1 { pi with ring := pi.ring.pop }
  unfold pipeReadLocked readLoop
  grind [eFault]

lemma writeLoop_ne_ePipe (copyin : Nat → Option Byte) (n : Nat) (pi : Pipe) (hi : 0 < i) :
    (writeLoop copyin n i pi).outcome ≠ .returned (-ePipe) := by
  fun_induction writeLoop copyin n i pi <;> grind [ePipe, eFault]

lemma pipeWrite_ePipe (copyin : Nat → Option Byte) (h : i < size) :
    (pipeWrite copyin size i pi).outcome = .returned (-ePipe) ↔ i = 0 ∧ pi.readable = false := by
  obtain ⟨n, hn⟩ := Nat.exists_eq_add_of_lt h
  have hmore := fun ch =>
    writeLoop_ne_ePipe copyin n { pi with ring := pi.ring.push pipeBufSize ch } i.succ_pos
  rw [pipeWrite, show size - i = n + 1 by omega, writeLoop]
  grind [ePipe, eFault]

/-- What a segment of a writer does that has moved `i` bytes of `size`. -/
structure WritePost (size i : Nat) (pi : Pipe) (g : Segment) : Prop where
  added : g.pipe.contents = pi.contents ++ g.moved
  few : i + g.moved.length ≤ size
  room : g.pipe.ring.count ≤ pipeBufSize
  result : g.Returns i ∨ g.outcome = .sleeping (i + g.moved.length)

lemma writeLoop_post (copyin : Nat → Option Byte) (n i : Nat) (pi : Pipe)
    (h : pi.ring.count ≤ pipeBufSize) : WritePost (i + n) i pi (writeLoop copyin n i pi) := by
  fun_induction writeLoop copyin n i pi with
  | case1 i pi => exact ⟨by simp, le_refl _, h, .inl ⟨_, rfl, .inl (by simp)⟩⟩
  | case2 n i pi hread =>
    have hswap : (if 0 < i then (i : Int) else -ePipe) = if i = 0 then -ePipe else i := by
      split <;> split <;> omega
    rw [hswap]
    exact ⟨by simp, le_add_right i _, h, .inl (Segment.returns_now pi (by decide))⟩
  | case3 n i pi hread hfull => exact ⟨by simp, le_add_right i _, h, .inr rfl⟩
  | case4 n i pi hread hroom hcopy =>
    exact ⟨by simp, le_add_right i _, h, .inl (Segment.returns_now pi (by decide))⟩
  | case5 n i pi hread hroom ch hcopy s ih =>
    have hlt : pi.ring.count < pipeBufSize := Nat.lt_of_not_le hroom
    have hpush : Pipe.contents { pi with ring := pi.ring.push pipeBufSize ch } =
        pi.contents ++ [ch] :=
      Ring.contents_push (by decide) (by decide) hlt ch
    have hcount : (pi.ring.push pipeBufSize ch).count = pi.ring.count + 1 := by
      refine Ring.count_push ?_ ch
      simp only [pipeBufSize] at hlt
      omega
    have ih := ih (by rw [hcount]; exact hlt)
    have hmove : i + (s.moved.length + 1) = i + 1 + s.moved.length := by omega
    refine ⟨?_, ?_, ih.room, ?_⟩
    · rw [ih.added, hpush, append_assoc]
      rfl
    · have := ih.few
      rw [length_cons, hmove]
      change i + 1 + s.moved.length ≤ i + 1 + n at this
      omega
    · obtain hret | hsleep := ih.result
      · exact .inl (hret.cons ch)
      · exact .inr (hsleep.trans (by rw [length_cons, hmove]))

lemma pipeWrite_post (copyin : Nat → Option Byte) (hi : i ≤ size)
    (h : pi.ring.count ≤ pipeBufSize) : WritePost size i pi (pipeWrite copyin size i pi) := by
  have hpost := writeLoop_post copyin (size - i) i pi h
  rwa [Nat.add_sub_cancel' hi] at hpost

/-! ## The system -/

/-- A sleeping writer has moved as many bytes as its counter says. -/
def Thread.Ok : Thread → Prop
  | .idle => True
  | .reading _ => True
  | .writing size i moved => size < 2 ^ 31 ∧ i ≤ size ∧ moved.length = i

/-- The bytes that entered the ring are those that left it, followed by its contents. -/
structure PipeInv (s : PipeState) : Prop where
  conserved : s.accepted = s.delivered ++ s.pipe.contents
  room : s.pipe.ring.count ≤ pipeBufSize
  threads : ∀ pid, (s.threads pid).Ok
  calls : ∀ n moved, (n, moved) ∈ s.calls → Reports n moved

lemma pipeInv_init (cells : Nat → Byte) : PipeInv (.init cells) := by
  have hcount : (PipeState.init cells).pipe.ring.count = 0 := Ring.count_eq_zero.mpr rfl
  have hempty : (PipeState.init cells).pipe.contents = [] :=
    length_eq_zero_iff.mp (Ring.length_contents.trans hcount)
  refine ⟨hempty.symm, ?_, fun _ => trivial, by simp [PipeState.init]⟩
  rw [hcount]
  exact zero_le pipeBufSize

lemma threads_ok_update {threads : Nat → Thread} (h : ∀ pid, (threads pid).Ok) (pid : Nat)
    {t : Thread} (ht : t.Ok) (pid' : Nat) : (update threads pid t pid').Ok := by
  by_cases hp : pid' = pid
  · subst hp
    rwa [update_self]
  · rw [update_of_ne hp]
    exact h pid'

lemma calls_cons {calls : List (Int × List Byte)} {r : Int} {bs : List Byte}
    (h : ∀ n moved, (n, moved) ∈ calls → Reports n moved) (hr : Reports r bs) :
    ∀ n moved, (n, moved) ∈ (r, bs) :: calls → Reports n moved := by
  intro n moved hmem
  obtain heq | hmem := mem_cons.mp hmem
  · cases heq
    exact hr
  · exact h n moved hmem

namespace PipeInv

variable {s : PipeState} {pid size i : Nat} {moved : List Byte} {g : Segment}

lemma afterRead (h : PipeInv s) (hpost : ReadPost s.pipe g) : PipeInv (s.afterRead pid size g) := by
  have hlen : s.pipe.ring.count = g.moved.length + g.pipe.ring.count := by
    have := congrArg length hpost.taken
    simpa [Pipe.contents] using this
  have hroom : s.pipe.ring.count ≤ 512 := h.room
  refine ⟨?_, ?_, threads_ok_update h.threads pid ?_, ?_⟩
  · change s.accepted = s.delivered ++ g.moved ++ g.pipe.contents
    rw [h.conserved, hpost.taken, append_assoc]
  · change g.pipe.ring.count ≤ 512
    omega
  · cases g.outcome <;> trivial
  · simp only [PipeState.afterRead]
    obtain ⟨r, hout, hres⟩ | ⟨hout, -⟩ := hpost.result
    · rw [hout]
      refine calls_cons h.calls ?_
      obtain hres | ⟨hneg, hnil, -⟩ := hres
      · exact .inl ⟨by simpa using hres, by omega⟩
      · exact .inr ⟨hneg, hnil⟩
    · rw [hout]
      exact h.calls

lemma afterWrite (h : PipeInv s) (hsize : size < 2 ^ 31) (hmoved : moved.length = i)
    (hpost : WritePost size i s.pipe g) : PipeInv (s.afterWrite pid size moved g) := by
  have hfew := hpost.few
  have hlen : (moved ++ g.moved).length = i + g.moved.length := by
    rw [length_append, hmoved]
  refine ⟨?_, hpost.room, threads_ok_update h.threads pid ?_, ?_⟩
  · change s.accepted ++ g.moved = s.delivered ++ g.pipe.contents
    rw [h.conserved, hpost.added, append_assoc]
  · obtain ⟨r, hout, -⟩ | hout := hpost.result
    · rw [hout]
      trivial
    · rw [hout]
      exact ⟨hsize, hfew, hlen⟩
  · simp only [PipeState.afterWrite]
    obtain ⟨r, hout, hres⟩ | hout := hpost.result
    · rw [hout]
      refine calls_cons h.calls ?_
      obtain hres | ⟨hneg, hnil, hi⟩ := hres
      · refine .inl ⟨?_, by omega⟩
        rw [hlen, hres]
        rfl
      · refine .inr ⟨hneg, ?_⟩
        rw [hnil, append_nil]
        exact length_eq_zero_iff.mp (hmoved.trans hi)
    · rw [hout]
      exact h.calls

lemma write (h : PipeInv s) (copyin : Nat → Option Byte) (size : BitVec 32) :
    PipeInv (s.afterWrite pid size.toNat [] (sysWritePipe copyin size s.pipe)) := by
  unfold sysWritePipe
  split
  · -- the request is refused: nothing but the record of the call changes
    refine ⟨?_, h.room, threads_ok_update h.threads pid trivial,
      calls_cons h.calls (.inr ⟨by decide, rfl⟩)⟩
    simpa [PipeState.afterWrite] using h.conserved
  · rename_i hneg
    have hsize : size.toNat < 2 ^ 31 := by
      rw [BitVec.toInt_eq_toNat_cond] at hneg
      have := size.isLt
      split at hneg <;> omega
    exact h.afterWrite hsize rfl (pipeWrite_post copyin (zero_le _) h.room)

lemma step (h : PipeInv s) (hstep : PipeStep s a t) : PipeInv t := by
  cases hstep with
  | read _ _ => exact h.afterRead (sysReadPipe_post _ _ _)
  | wakeReader _ _ => exact h.afterRead (pipeReadLocked_post _ _ _)
  | write _ _ => exact h.write _ _
  | @wakeWriter pid _ _ _ _ _ hthread =>
    have hok := h.threads pid
    rw [hthread] at hok
    obtain ⟨hsize, hi, hmoved⟩ := hok
    exact h.afterWrite hsize hmoved (pipeWrite_post _ hi h.room)
  | close _ =>
    have hring : ∀ w, (pipeClose w s.pipe).ring = s.pipe.ring := by
      intro w
      cases w <;> rfl
    refine ⟨?_, ?_, h.threads, h.calls⟩
    · rw [Pipe.contents, hring]
      exact h.conserved
    · rw [hring]
      exact h.room

end PipeInv

/-- In every interleaving the bytes that readers got are the first of those that writers put in, the
rest is in the ring, which holds at most its capacity, and every call reports the bytes it moved.
From any state reached, a read takes out exactly the bytes it could copy out, and a write adds
exactly the bytes it could copy in. -/
theorem pipe_fifo (cells : Nat → Byte) (acts : List PipeAction) (s : PipeState)
    (hrun : Run PipeStep (.init cells) acts s) :
    s.delivered <+: s.accepted ∧
      s.accepted = s.delivered ++ s.pipe.contents ∧
      (s.pipe.ring.nwrite - s.pipe.ring.nread).toNat ≤ pipeBufSize ∧
      (∀ n moved, (n, moved) ∈ s.calls → n = moved.length ∨ (n < 0 ∧ moved = [])) ∧
      (∀ copyout size,
        let g := pipeRead copyout size s.pipe
        s.pipe.contents = g.moved ++ g.pipe.contents ∧
          ∀ k < g.moved.length, copyout k = true) ∧
      (∀ copyin size, ∀ i ≤ size,
        let g := pipeWrite copyin size i s.pipe
        g.pipe.contents = s.pipe.contents ++ g.moved ∧
          ∀ k b, g.moved[k]? = some b → copyin (i + k) = some b) := by
  have h : PipeInv s :=
    hrun.invariant PipeInv (fun _ _ _ hI hstep => hI.step hstep) (pipeInv_init cells)
  refine ⟨⟨s.pipe.contents, h.conserved.symm⟩, h.conserved, h.room, ?_, ?_, ?_⟩
  · intro n moved hmem
    exact (h.calls n moved hmem).imp And.left id
  · intro copyout size
    exact ⟨(pipeRead_post copyout size s.pipe).taken, pipeRead_copied copyout size s.pipe⟩
  · intro copyin size i hi
    exact ⟨(pipeWrite_post copyin hi h.room).added, writeLoop_copied copyin _ i s.pipe⟩

/-- A process writes three bytes; another one asks for nine and can store only one of them. -/
theorem pipe_fifo_partial :
    ∃ s : PipeState, s.delivered = [1#8] ∧ s.accepted = [1#8, 2#8, 3#8] ∧
      s.delivered <+: s.accepted := by
  let copyin : Nat → Option Byte := fun k => some (BitVec.ofNat 8 (k + 1))
  let copyout : Nat → Bool := fun k => k = 0
  let s₀ := PipeState.init fun _ => 0#8
  let s₁ := s₀.afterWrite 1 3 [] (sysWritePipe copyin 3#32 s₀.pipe)
  let s₂ := s₁.afterRead 2 9 (sysReadPipe copyout 9#32 s₁.pipe)
  have hrun : Run PipeStep s₀ [.write 1 3#32 copyin, .read 2 9#32 copyout] s₂ :=
    .cons (.write (.inl rfl) rfl) (.cons (.read (.inl (by decide +kernel)) rfl) (.nil s₂))
  exact ⟨s₂, by decide +kernel, by decide +kernel, (pipe_fifo _ _ _ hrun).1⟩

end FrostVista.Kernel
