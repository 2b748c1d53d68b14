import Mathlib.Data.List.Basic
import Mathlib.Tactic

/-!
# Dynamic strings

The part of `sds.c` that the reply parser and the output buffer rest on.  A
string is its bytes and the number of bytes allocated beyond them; the lengths
are below `2 ^ 31`, so the `int` arithmetic of `sdsrange` is exact.
-/

namespace MuxHiredis

structure Sds where
  bytes : List UInt8
  avail : ℕ
  deriving DecidableEq, Repr

/-- `SDS_MAX_PREALLOC`. -/
def sdsMaxPrealloc : ℕ := 1024 * 1024

def sdsempty : Sds := ⟨[], 0⟩

def sdslen (s : Sds) : ℕ := s.bytes.length

def sdsavail (s : Sds) : ℕ := s.avail

def sdsMakeRoomFor (s : Sds) (addlen : ℕ) : Sds :=
  if addlen ≤ sdsavail s then s
  else
    let newlen := sdslen s + addlen
    let alloc := if newlen < sdsMaxPrealloc then newlen * 2 else newlen + sdsMaxPrealloc
    { s with avail := alloc - sdslen s }

def sdscatlen (s : Sds) (t : List UInt8) : Sds :=
  let s := sdsMakeRoomFor s t.length
  ⟨s.bytes ++ t, s.avail - t.length⟩

/-- Keep the bytes from `start` to `stop`, both inclusive; a negative index
counts from the end. -/
def sdsrange (s : Sds) (start stop : ℤ) : Sds :=
  let len : ℤ := sdslen s
  if len = 0 then s
  else
    let start := if start < 0 then max (len + start) 0 else start
    let stop := if stop < 0 then max (len + stop) 0 else stop
    let newlen :=
      if stop < start then 0
      else if len ≤ start then 0
      else if len ≤ stop then len - start
      else stop - start + 1
    ⟨(s.bytes.drop start.toNat).take newlen.toNat, s.avail + (sdslen s - newlen.toNat)⟩

@[simp] theorem sdsempty_bytes : sdsempty.bytes = [] := rfl

@[simp] theorem sdsMakeRoomFor_bytes (s : Sds) (n : ℕ) :
    (sdsMakeRoomFor s n).bytes = s.bytes := by
  unfold sdsMakeRoomFor
  split <;> rfl

@[simp] theorem sdscatlen_bytes (s : Sds) (t : List UInt8) :
    (sdscatlen s t).bytes = s.bytes ++ t := by
  simp [sdscatlen]

/-- The use made of `sdsrange` everywhere: drop what was consumed. -/
theorem sdsrange_drop (s : Sds) {n : ℕ} (hn : n ≤ sdslen s) :
    (sdsrange s n (-1)).bytes = s.bytes.drop n := by
  unfold sdsrange
  have hlen : sdslen s = s.bytes.length := rfl
  by_cases h0 : (sdslen s : ℤ) = 0
  · have hnil : s.bytes = [] := List.length_eq_zero_iff.mp (by omega)
    simp [h0, hnil]
  · have hstart : ¬((n : ℤ) < 0) := by omega
    have hstop : max ((sdslen s : ℤ) + -1) 0 = (sdslen s : ℤ) - 1 := by omega
    simp only [if_neg h0, if_neg hstart, if_pos (show (-1 : ℤ) < 0 by omega), hstop,
      Int.toNat_natCast]
    by_cases hall : n = sdslen s
    · have hlt : (sdslen s : ℤ) - 1 < (n : ℤ) := by omega
      simp only [if_pos hlt, Int.toNat_zero, List.take_zero]
      exact (List.drop_eq_nil_of_le (by omega)).symm
    · rw [if_neg (show ¬((sdslen s : ℤ) - 1 < (n : ℤ)) by omega),
        if_neg (show ¬((sdslen s : ℤ) ≤ (n : ℤ)) by omega),
        if_neg (show ¬((sdslen s : ℤ) ≤ (sdslen s : ℤ) - 1) by omega)]
      apply List.take_of_length_le
      rw [List.length_drop]
      omega

end MuxHiredis
