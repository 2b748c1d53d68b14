import Mathlib.Data.List.Basic
import Mathlib.Tactic

/-!
# Scanning header lines

`seekNewline` and `readLongLong` of `read.c`.  A pointer into the buffer is the
list of the bytes from it to the end of the buffer.
-/

namespace MuxHiredis

def cr : UInt8 := 13

def lf : UInt8 := 10

/-- A `long long` after wrapping around. -/
def wrap64 (x : ℤ) : ℤ := x.bmod (2 ^ 64)

/-- An `int` after wrapping around. -/
def wrap32 (x : ℤ) : ℤ := x.bmod (2 ^ 32)

/-- The offset of the first `\r\n`.  The last byte is never taken for the `\r`,
since the byte after it must be there as well. -/
def seekNewline : List UInt8 → Option ℕ
  | a :: b :: rest =>
      if a = cr ∧ b = lf then some 0 else (seekNewline (b :: rest)).map (· + 1)
  | _ => none

/-- The digit loop of `readLongLong`, up to the `\r`.  The byte after the
buffer is the terminator of the string, which is no digit. -/
def readDigits : ℤ → List UInt8 → Option ℤ
  | _, [] => none
  | v, c :: rest =>
      if c = cr then some v
      else if 48 ≤ c ∧ c < 58 then
        readDigits (wrap64 (wrap64 (v * 10) + ((c.toNat : ℤ) - 48))) rest
      else none

/-- Unexpected input reads as `-1`. -/
def readLongLong (s : List UInt8) : ℤ :=
  let signed : ℤ × List UInt8 :=
    match s with
    | c :: rest => if c = 45 then (-1, rest) else if c = 43 then (1, rest) else (1, s)
    | [] => (1, s)
  match readDigits 0 signed.2 with
  | some v => wrap64 (signed.1 * v)
  | none => -1

/-! ## What a scan finds does not depend on what follows -/

theorem seekNewline_lt {xs : List UInt8} {n : ℕ} (h : seekNewline xs = some n) :
    n + 2 ≤ xs.length := by
  induction xs using seekNewline.induct generalizing n with
  | case1 a b rest hab =>
      simp only [seekNewline, if_pos hab] at h
      simp only [List.length_cons]
      have hn : n = 0 := (Option.some.inj h).symm
      omega
  | case2 a b rest hab ih =>
      simp only [seekNewline, if_neg hab, Option.map_eq_some_iff] at h
      obtain ⟨m, hm, rfl⟩ := h
      have hle := ih hm
      simp only [List.length_cons] at hle ⊢
      omega
  | case3 xs hxs => simp [seekNewline] at h

theorem seekNewline_append {xs : List UInt8} {n : ℕ} (h : seekNewline xs = some n)
    (ys : List UInt8) : seekNewline (xs ++ ys) = some n := by
  induction xs using seekNewline.induct generalizing n with
  | case1 a b rest hab =>
      simpa only [List.cons_append, seekNewline, if_pos hab] using h
  | case2 a b rest hab ih =>
      simp only [seekNewline, if_neg hab, Option.map_eq_some_iff] at h
      obtain ⟨m, hm, rfl⟩ := h
      have happ := ih hm
      simp only [List.cons_append] at happ
      simp only [List.cons_append, seekNewline, if_neg hab, happ, Option.map_some]
  | case3 xs hxs => simp [seekNewline] at h

/-- The byte at the offset found is the `\r`, which ends every number. -/
theorem cr_mem_take {xs : List UInt8} {n : ℕ} (h : seekNewline xs = some n) :
    cr ∈ xs.take (n + 1) := by
  induction xs using seekNewline.induct generalizing n with
  | case1 a b rest hab => simp [hab.1]
  | case2 a b rest hab ih =>
      simp only [seekNewline, if_neg hab, Option.map_eq_some_iff] at h
      obtain ⟨m, hm, rfl⟩ := h
      rw [List.take_succ_cons]
      exact List.mem_cons_of_mem a (ih hm)
  | case3 xs hxs => simp [seekNewline] at h

theorem readDigits_append {xs : List UInt8} (h : cr ∈ xs) (v : ℤ) (ys : List UInt8) :
    readDigits v (xs ++ ys) = readDigits v xs := by
  induction xs generalizing v with
  | nil => simp at h
  | cons c rest ih =>
      simp only [List.cons_append, readDigits]
      by_cases hc : c = cr
      · simp [hc]
      · rw [if_neg hc, if_neg hc]
        split
        · exact ih ((List.mem_cons.mp h).resolve_left fun he ↦ hc he.symm) _
        · rfl

theorem readLongLong_append {xs : List UInt8} (h : cr ∈ xs) (ys : List UInt8) :
    readLongLong (xs ++ ys) = readLongLong xs := by
  cases xs with
  | nil => simp at h
  | cons c rest =>
      have hsign : ∀ d : UInt8, d ≠ cr → c = d → cr ∈ rest := by
        intro d hd hcd
        exact (List.mem_cons.mp h).resolve_left fun he ↦ hd (hcd.symm.trans he.symm)
      simp only [readLongLong, List.cons_append]
      by_cases hm : c = 45
      · simp only [if_pos hm, readDigits_append (hsign 45 (by decide) hm)]
      · by_cases hp : c = 43
        · simp only [if_neg hm, if_pos hp, readDigits_append (hsign 43 (by decide) hp)]
        · simp only [if_neg hm, if_neg hp, ← List.cons_append, readDigits_append h]

/-- A header line is read the same whatever follows it. -/
theorem readLongLong_line_append {xs : List UInt8} {n : ℕ} (h : seekNewline xs = some n)
    (ys : List UInt8) : readLongLong (xs ++ ys) = readLongLong xs :=
  readLongLong_append (List.mem_of_mem_take (cr_mem_take h)) ys

end MuxHiredis
