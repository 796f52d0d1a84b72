import FrostVista.Library.Segment
import FrostVista.Machine.State

/-!
# The data of regular files

The read operation of `kernel/fs/tmpfs/inode.c` copies page by page and stops at a page that the
file does not have. What a page lookup (`tmpfs_bmap`) finds is part of the inode.
-/
namespace FrostVista.Kernel

open Lib Function List Nat

def pageSize : Nat := 4096

/-- The size and the pages of a file. -/
structure Inode where
  size : Nat
  page : Nat → Option (Nat → Byte)

/-- The byte at a position, if the file has one there. -/
def Inode.byte (ip : Inode) (i : Nat) : Option Byte :=
  if i < ip.size then (ip.page (i / pageSize)).map (· (i % pageSize)) else none

/-- The copying loop of the read operations; each round copies at least one byte. -/
def readPages (ip : Inode) : Nat → Nat → Nat → List Byte
  | 0, _, _ => []
  | fuel + 1, off, total =>
    if off < total then
      match ip.page (off / pageSize) with
      | none => []
      | some p =>
        let len := min (pageSize - off % pageSize) (total - off)
        (List.range len).map (fun k => p (off % pageSize + k)) ++
          readPages ip fuel (off + len) total
    else []

def tmpfsMaxFile : Nat := 10 + 512 + 512 * 512

def tmpfsVfsRead (ip : Inode) (offset : BitVec 64) (size : Nat) : Option (List Byte) :=
  let off := offset.toNat
  if 2 ^ 64 ≤ off + size then none
  else if tmpfsMaxFile * pageSize < off + size then none
  else if ip.size ≤ off then some []
  else
    let total := min (off + size) ip.size
    some (readPages ip (total - off) off total)

/-! ## What a read returns -/

variable {ip : Inode}

variable {i off n size : Nat} {offset : BitVec 64}

lemma inode_byte_of_page (hp : ip.page (i / pageSize) = some p)
    (hk : i % pageSize + k < pageSize) (hs : i + k < ip.size) :
    ip.byte (i + k) = some (p (i % pageSize + k)) := by
  have hdiv : (i + k) / pageSize = i / pageSize := by
    simp only [pageSize] at hk ⊢
    omega
  have hmod : (i + k) % pageSize = i % pageSize + k := by
    simp only [pageSize] at hk ⊢
    omega
  rw [Inode.byte, if_pos hs, hdiv, hmod, hp]
  rfl

lemma readPages_eq (hf : total - off ≤ fuel) (ht : total ≤ ip.size) :
    readPages ip fuel off total = segment ip.byte off (total - off) := by
  induction fuel generalizing off with
  | zero =>
    rw [show total - off = 0 by omega]
    rfl
  | succ fuel ih =>
    by_cases hlt : off < total
    · have hdiv : ip.byte off = (ip.page (off / pageSize)).map (· (off % pageSize)) :=
        if_pos (by omega)
      cases hp : ip.page (off / pageSize) with
      | none =>
        rw [hp] at hdiv
        simp [readPages, hlt, hp, segment_of_none hdiv]
      | some p =>
        have hpage : 0 < pageSize - off % pageSize := by
          simp only [pageSize]
          omega
        simp only [readPages, if_pos hlt, hp]
        generalize hlen : min (pageSize - off % pageSize) (total - off) = len
        have hpiece : segment ip.byte off len =
            (range len).map fun k => p (off % pageSize + k) :=
          segment_eq_map fun k hk => inode_byte_of_page hp (by omega) (by omega)
        have hlength : (segment ip.byte off len).length = len := by simp [hpiece]
        rw [segment_split ip.byte off (show len ≤ total - off by omega), hlength, ← hpiece,
          ih (by omega), Nat.sub_sub]
    · rw [show total - off = 0 by omega]
      simp [readPages, hlt]

lemma Inode.byte_of_size_le (h : ip.size ≤ i) : ip.byte i = none := by
  rw [Inode.byte, if_neg (not_lt.mpr h)]

/-- Reading up to the end of the file is reading without that bound. -/
lemma readPages_clamped (hm : m = min n (ip.size - off)) (hs : off ≤ ip.size) :
    readPages ip m off (off + m) = segment ip.byte off n := by
  rw [readPages_eq (by omega) (by omega), Nat.add_sub_cancel_left]
  refine segment_eq_of_none (by omega) fun hlt => ?_
  exact Inode.byte_of_size_le (by omega)

lemma tmpfsVfsRead_eq (h : offset.toNat + size ≤ tmpfsMaxFile * pageSize) :
    tmpfsVfsRead ip offset size = some (segment ip.byte offset.toNat size) := by
  have hmax : tmpfsMaxFile * pageSize < 2 ^ 64 := by decide
  simp only [tmpfsVfsRead]
  rw [if_neg (by omega), if_neg (by omega)]
  by_cases hend : ip.size ≤ offset.toNat
  · rw [if_pos hend, segment_of_none (Inode.byte_of_size_le hend)]
  · rw [if_neg hend, ← readPages_clamped rfl (by omega)]
    congr 2 <;> omega

/-! ## Files -/

/-- A regular file as `sys_read` sees it: its read operation returns at most as many bytes as it is
asked for, or fails. -/
structure RegularFile where
  read : BitVec 64 → Nat → Option (List Byte)
  length_le : ∀ offset size bs, read offset size = some bs → bs.length ≤ size

def Inode.tmpfs (ip : Inode) : RegularFile where
  read := tmpfsVfsRead ip
  length_le := by
    intro offset size bs h
    by_cases hmax : offset.toNat + size ≤ tmpfsMaxFile * pageSize
    · rw [tmpfsVfsRead_eq hmax] at h
      cases h
      exact length_segment_le ..
    · simp only [tmpfsVfsRead, if_pos (Nat.lt_of_not_le hmax), ite_self] at h
      cases h

end FrostVista.Kernel
