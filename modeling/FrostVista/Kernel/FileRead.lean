import FrostVista.Kernel.FileData
import FrostVista.Kernel.Pipe

/-!
# Reading regular files

The part of `sys_read` in `kernel/core/sysfile.c` that serves regular files. It reads pieces of at
most 255 bytes into a buffer of the kernel and copies each piece to the user. Which addresses of the
user's buffer can be written is arbitrary.
-/
namespace FrostVista.Kernel

open Lib List

/-- `copyout` succeeds if it can write all bytes. -/
def copyoutOk (writable : BitVec 64 → Bool) (dest : BitVec 64) (len : Nat) : Bool :=
  (List.range len).all fun i => writable (dest + BitVec.ofNat 64 i)

/-- The value `sys_read` returns, the offset it leaves and the bytes it delivered. -/
structure ReadResult where
  ret : Int
  offset : BitVec 64
  delivered : List Byte
  deriving DecidableEq, Repr

/-- The value of a call that fails with `e` when it has moved `total` bytes. -/
def failed (total : Nat) (e : Int) : Int :=
  if 0 < total then total else if e = -1 then -eIo else e

/-- A loop that reads `reset` bytes in pieces and copies each piece to the user; the flag tells that
it does not get to the end of the request. Every round reads at least one byte. -/
def readPieces (f : RegularFile) (chunk : Nat → Nat) (writable : BitVec 64 → Bool) :
    Nat → Nat → Nat → BitVec 64 → BitVec 64 → Bool × ReadResult
  | 0, _, total, _, offset => (false, ⟨total, offset, []⟩)
  | fuel + 1, reset, total, dest, offset =>
    if reset = 0 then (false, ⟨total, offset, []⟩)
    else
      match f.read offset (chunk reset) with
      | none => (true, ⟨failed total (-1), offset, []⟩)
      | some [] => (true, ⟨total, offset, []⟩)
      | some bs =>
        let offset := offset + BitVec.ofNat 64 bs.length
        if !copyoutOk writable dest bs.length then (true, ⟨failed total (-eFault), offset, []⟩)
        else
          let r := readPieces f chunk writable fuel (reset - bs.length) (total + bs.length)
            (dest + BitVec.ofNat 64 bs.length) offset
          (r.1, { r.2 with delivered := bs ++ r.2.delivered })

/-- The size of the next piece in `sys_read`. -/
def readChunk (reset : Nat) : Nat := if 256 ≤ reset then 255 else reset

/-- `sys_read` on a regular file that is open for reading. -/
def sysRead (f : RegularFile) (writable : BitVec 64 → Bool) (size : BitVec 32)
    (dest offset : BitVec 64) : ReadResult :=
  if size.toInt < 0 then ⟨-eInval, offset, []⟩
  else (readPieces f readChunk writable size.toNat size.toNat 0 dest offset).2

/-- The bytes the file has for a request, read in the same pieces. -/
def supply (f : RegularFile) : Nat → Nat → BitVec 64 → List Byte
  | 0, _, _ => []
  | fuel + 1, reset, offset =>
    if reset = 0 then []
    else
      match f.read offset (readChunk reset) with
      | none => []
      | some [] => []
      | some bs => bs ++ supply f fuel (reset - bs.length) (offset + BitVec.ofNat 64 bs.length)

/-- The bytes from `dest` on can be written. -/
def Writable (writable : BitVec 64 → Bool) (dest : BitVec 64) (len : Nat) : Prop :=
  ∀ i < len, writable (dest + BitVec.ofNat 64 i) = true

instance (writable : BitVec 64 → Bool) (dest : BitVec 64) (len : Nat) :
    Decidable (Writable writable dest len) :=
  inferInstanceAs (Decidable (∀ i < len, _))

variable {dest : BitVec 64} {writable : BitVec 64 → Bool}

lemma copyoutOk_iff {len : Nat} :
    copyoutOk writable dest len = true ↔ Writable writable dest len := by
  simp [copyoutOk, Writable]

lemma writable_add {m n : Nat} : Writable writable dest (m + n) ↔
      Writable writable dest m ∧ Writable writable (dest + BitVec.ofNat 64 m) n := by
  constructor
  · intro h
    refine ⟨fun i hi => h i (by omega), fun i hi => ?_⟩
    rw [BitVec.add_assoc, ← BitVec.ofNat_add]
    exact h (m + i) (by omega)
  · intro ⟨hm, hn⟩ i hi
    by_cases hlt : i < m
    · exact hm i hlt
    · have := hn (i - m) (by omega)
      rwa [BitVec.add_assoc, ← BitVec.ofNat_add, Nat.add_sub_cancel' (by omega)] at this

/-- What the loop does when it has read `total` bytes: `extra` bytes are consumed and lost. -/
structure ReadLoopPost (total : Nat) (offset : BitVec 64) (supplied : List Byte) (ok : Prop)
    (extra : Nat) (r : ReadResult) : Prop where
  ret : r.ret = total + r.delivered.length ∨ (r.ret < 0 ∧ total + r.delivered.length = 0)
  offset : r.offset = offset + BitVec.ofNat 64 (r.delivered.length + extra)
  few : extra ≤ 255
  lost : extra = 0 ↔ ok
  front : r.delivered <+: supplied

lemma readChunk_le (reset : Nat) : readChunk reset ≤ 255 := by
  unfold readChunk
  split <;> omega

lemma ReadLoopPost.stop {total : Nat} {offset : BitVec 64}
    {ret : Int} (h : ret = total ∨ (ret < 0 ∧ total = 0)) :
    ReadLoopPost total offset [] (Writable writable dest ([] : List Byte).length) 0
      ⟨ret, offset, []⟩ where
  ret := by simpa using h
  offset := by simp
  few := Nat.zero_le _
  lost := by simp [Writable]
  front := nil_prefix

lemma failed_cases (P : Int → Prop) (total : Nat) (he : P (if e = -1 then -eIo else e)) :
    failed total e = total ∨ (P (failed total e) ∧ total = 0) := by
  unfold failed
  by_cases h : 0 < total
  · exact .inl (if_pos h)
  · rw [if_neg h]
    exact .inr ⟨he, by omega⟩

lemma readPieces_post (f : RegularFile) (writable : BitVec 64 → Bool) (fuel reset total : Nat)
    (dest offset : BitVec 64) : ∃ extra, ReadLoopPost total offset (supply f fuel reset offset)
      (Writable writable dest (supply f fuel reset offset).length) extra
      (readPieces f readChunk writable fuel reset total dest offset).2 := by
  induction fuel generalizing reset total dest offset with
  | zero => exact ⟨0, .stop (.inl rfl)⟩
  | succ fuel ih =>
    simp only [readPieces, supply]
    by_cases hreset : reset = 0
    · rw [if_pos hreset, if_pos hreset]
      exact ⟨0, .stop (.inl rfl)⟩
    rw [if_neg hreset, if_neg hreset]
    cases hread : f.read offset (readChunk reset) with
    | none => exact ⟨0, .stop (failed_cases (· < 0) total (by decide))⟩
    | some bs =>
      have hlen := f.length_le _ _ _ hread
      have hchunk := readChunk_le reset
      cases bs with
      | nil => exact ⟨0, .stop (.inl rfl)⟩
      | cons b bs =>
        simp only
        generalize hbs : b :: bs = piece at hlen
        have hpos : 0 < piece.length := by simp [← hbs]
        clear hbs
        by_cases hcopy : Writable writable dest piece.length
        · rw [if_neg (by simpa [copyoutOk_iff] using hcopy)]
          obtain ⟨extra, h⟩ := ih (reset - piece.length) (total + piece.length)
            (dest + BitVec.ofNat 64 piece.length) (offset + BitVec.ofNat 64 piece.length)
          refine ⟨extra, ?_, ?_, h.few, ?_, ?_⟩
          · have := h.ret
            simp only [length_append]
            omega
          · rw [h.offset, BitVec.add_assoc, ← BitVec.ofNat_add, length_append, Nat.add_assoc]
          · rw [h.lost, length_append, writable_add, and_iff_right hcopy]
          · exact (prefix_append_right_inj _).mpr h.front
        · -- the piece is consumed, but it does not reach the user
          rw [if_pos (by simpa [← copyoutOk_iff] using hcopy)]
          refine ⟨piece.length, ?_, ?_, by omega, ?_, nil_prefix⟩
          · simpa using failed_cases (· < 0) total (by decide)
          · simp
          · rw [length_append, writable_add, iff_false_right (fun h => hcopy h.1)]
            omega

/-- `sys_read` advances the offset by the bytes it reports if and only if all bytes that the file
has for the request can be stored in the user's buffer. -/
theorem sysRead_offset_iff (f : RegularFile) (writable : BitVec 64 → Bool) (size : BitVec 32)
    (dest offset : BitVec 64) :
    let r := sysRead f writable size dest offset
    r.offset = offset + BitVec.ofInt 64 (max r.ret 0) ↔
      (0 ≤ size.toInt →
        Writable writable dest (supply f size.toNat size.toNat offset).length) := by
  intro r
  by_cases hneg : size.toInt < 0
  · have hr : r = ⟨-eInval, offset, []⟩ := if_pos hneg
    rw [hr]
    simp [eInval]
    omega
  · obtain ⟨extra, h⟩ := readPieces_post f writable size.toNat size.toNat 0 dest offset
    have hr : r = (readPieces f readChunk writable size.toNat size.toNat 0 dest offset).2 :=
      if_neg hneg
    rw [← hr] at h
    have hcount : max r.ret 0 = (r.delivered.length : Int) := by
      have := h.ret
      omega
    rw [h.offset, hcount, BitVec.ofInt_natCast, BitVec.ofNat_add, ← BitVec.add_assoc,
      forall_prop_of_true (by omega), ← h.lost]
    have hfew := h.few
    generalize offset + BitVec.ofNat 64 r.delivered.length = x
    constructor
    · intro heq
      have : BitVec.ofNat 64 extra = 0#64 := by simpa using heq
      have := congrArg BitVec.toNat this
      rw [BitVec.toNat_ofNat, Nat.mod_eq_of_lt (by omega)] at this
      simpa using this
    · intro hz
      simp [hz]

/-- A file of three bytes is read into a buffer that is not mapped: the call fails, and the next one
finds the end of the file. -/
theorem sysRead_loses_bytes :
    let f := Inode.tmpfs ⟨3, fun _ => some fun _ => 7#8⟩
    let r := sysRead f (fun _ => false) 3#32 0x1000#64 0#64
    r.ret = -eFault ∧ r.offset = 3#64 ∧
      sysRead f (fun _ => true) 3#32 0x2000#64 r.offset = ⟨0, 3#64, []⟩ ∧
      sysRead f (fun _ => true) 3#32 0x2000#64 0#64 = ⟨3, 3#64, [7#8, 7#8, 7#8]⟩ := by
  decide +kernel

end FrostVista.Kernel
