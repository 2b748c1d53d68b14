import Mathlib.Data.List.Basic
import Mathlib.Tactic

/-!
# Structures in memory

The fields of a C structure follow one another, each at the next multiple of its
alignment.  Memory is a list of bytes; a write to some of them leaves the others
as they are.
-/

namespace Layout

structure Field where
  size : ℕ
  align : ℕ

def roundUp (n align : ℕ) : ℕ := (n + align - 1) / align * align

/-- The offsets of fields that follow the first `n` bytes. -/
def offsetsFrom : ℕ → List Field → List ℕ
  | _, [] => []
  | n, field :: fields =>
      roundUp n field.align :: offsetsFrom (roundUp n field.align + field.size) fields

def offsets (fields : List Field) : List ℕ := offsetsFrom 0 fields

/-- Where the last of the fields ends. -/
def endFrom : ℕ → List Field → ℕ
  | n, [] => n
  | n, field :: fields => endFrom (roundUp n field.align + field.size) fields

/-- The size of the structure, a multiple of the strictest alignment. -/
def sizeof (fields : List Field) : ℕ :=
  roundUp (endFrom 0 fields) (fields.foldl (fun align field ↦ max align field.align) 1)

/-! ## Reading and writing -/

section Memory

variable {α : Type*}

def read (mem : List α) (offset size : ℕ) : List α := (mem.drop offset).take size

def write (mem : List α) (offset : ℕ) (bytes : List α) : List α :=
  mem.take offset ++ bytes ++ mem.drop (offset + bytes.length)

variable {mem bytes bytes' : List α} {offset : ℕ}

theorem le_length_write (mem : List α) (offset : ℕ) (bytes : List α) :
    mem.length ≤ (write mem offset bytes).length := by
  rw [write, List.length_append, List.length_append, List.length_take, List.length_drop]
  omega

theorem read_append (mem : List α) {offset' size size' all : ℕ} (ho : offset' = offset + size)
    (hall : all = size + size') :
    read mem offset size ++ read mem offset' size' = read mem offset all := by
  rw [read, read, read, ho, hall, List.take_add, ← List.drop_drop]

theorem read_write_of_le (h : offset + bytes.length ≤ mem.length) {o : ℕ}
    (ho : offset + bytes.length ≤ o) (size : ℕ) :
    read (write mem offset bytes) o size = read mem o size := by
  obtain ⟨k, rfl⟩ := Nat.exists_eq_add_of_le ho
  have hlen : (mem.take offset ++ bytes).length = offset + bytes.length := by
    rw [List.length_append, List.length_take]
    omega
  have hdrop : (write mem offset bytes).drop (offset + bytes.length + k) =
      mem.drop (offset + bytes.length + k) := by
    rw [write, ← hlen, List.drop_length_add_append, List.drop_drop]
  rw [read, hdrop, read]

theorem read_write_self (h : offset + bytes.length ≤ mem.length) :
    read (write mem offset bytes) offset bytes.length = bytes := by
  have hlen : (mem.take offset).length = offset := by
    rw [List.length_take]
    omega
  rw [read, write, List.append_assoc]
  nth_rewrite 1 [← hlen]
  rw [List.drop_left, List.take_left]

theorem write_eq_self_iff (h : offset + bytes.length ≤ mem.length) :
    write mem offset bytes = mem ↔ read mem offset bytes.length = bytes := by
  constructor
  · intro heq
    rw [← heq, read_write_self h]
  · intro heq
    have hrest : bytes ++ mem.drop (offset + bytes.length) = mem.drop offset := by
      rw [← List.drop_drop]
      nth_rewrite 1 [← heq]
      exact List.take_append_drop _ _
    rw [write, List.append_assoc, hrest, List.take_append_drop]

theorem write_write (h : offset + bytes.length ≤ mem.length) :
    write (write mem offset bytes) (offset + bytes.length) bytes' =
      write mem offset (bytes ++ bytes') := by
  have hlen : (mem.take offset ++ bytes).length = offset + bytes.length := by
    rw [List.length_append, List.length_take]
    omega
  have htake : (write mem offset bytes).take (offset + bytes.length) =
      mem.take offset ++ bytes := by
    rw [write, ← hlen, List.take_left]
  have hdrop : (write mem offset bytes).drop (offset + bytes.length + bytes'.length) =
      mem.drop (offset + (bytes ++ bytes').length) := by
    rw [write, ← hlen, List.drop_length_add_append, List.drop_drop, hlen, List.length_append,
      Nat.add_assoc]
  rw [write, htake, hdrop, write, List.append_assoc (mem.take offset)]

end Memory

end Layout
