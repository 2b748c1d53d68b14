import Mathlib.Data.List.Basic
import Mathlib.Tactic

/-!
# Words from pieces

A sequence of marks is either a piece of a word or, as `none`, a separator.  The
words are what stands between separators, with every piece joined to the one
before it.  They are collected one mark at a time; a word is there as soon as it
has a piece, even an empty one.
-/

namespace Words

variable {α : Type*}

/-- The words of a sequence of marks: split at the separators, leave out what
has no piece, join the pieces. -/
def words (marks : List (Option (List α))) : List (List α) :=
  ((marks.splitOnP Option.isNone).filter (!·.isEmpty)).map fun word ↦ word.flatMap (·.getD [])

/-- The words that are complete, and the one that is not. -/
structure Collected (α : Type*) where
  complete : List (List α)
  word : Option (List α)

namespace Collected

def empty : Collected α := ⟨[], none⟩

def read (w : Collected α) : Option (List α) → Collected α
  | none => ⟨w.complete ++ w.word.toList, none⟩
  | some piece => ⟨w.complete, some (w.word.getD [] ++ piece)⟩

def all (w : Collected α) : List (List α) := w.complete ++ w.word.toList

end Collected

/-! ## One mark at a time -/

@[simp] theorem words_nil : words ([] : List (Option (List α))) = [] := by
  simp [words]

@[simp] theorem words_none (marks : List (Option (List α))) :
    words (none :: marks) = words marks := by
  simp [words, List.splitOnP_cons_eq_if_modifyHead]

/-- The word that a piece is in has every piece up to the next separator. -/
theorem words_some (piece : List α) (marks : List (Option (List α))) :
    words (some piece :: marks) =
      (piece ++ ((marks.splitOnP Option.isNone).headD []).flatMap (·.getD [])) ::
        (((marks.splitOnP Option.isNone).tail.filter (!·.isEmpty)).map
          fun word ↦ word.flatMap (·.getD [])) := by
  rw [words, List.splitOnP_cons_eq_if_modifyHead]
  cases h : marks.splitOnP Option.isNone with
  | nil => exact absurd h (List.splitOnP_ne_nil _ _)
  | cons word rest => simp

theorem words_some_nil (piece : List α) : words [some piece] = [piece] := by
  simp [words_some]

theorem words_some_none (piece : List α) (marks : List (Option (List α))) :
    words (some piece :: none :: marks) = piece :: words marks := by
  rw [words_some, words]
  simp [List.splitOnP_cons_eq_if_modifyHead]

theorem words_some_some (piece piece' : List α) (marks : List (Option (List α))) :
    words (some piece :: some piece' :: marks) = words (some (piece ++ piece') :: marks) := by
  rw [words_some, words_some, List.splitOnP_cons_eq_if_modifyHead]
  cases h : marks.splitOnP Option.isNone with
  | nil => exact absurd h (List.splitOnP_ne_nil _ _)
  | cons word rest => simp

theorem Collected.length_toList {word word' : Option (List α)} (h : word.isNone = word'.isNone) :
    word.toList.length = word'.toList.length := by
  cases word <;> cases word' <;> simp_all

/-- Collecting the marks gives the words, by induction on the marks. -/
theorem Collected.foldl_read (marks : List (Option (List α))) (w : Collected α) :
    (marks.foldl read w).all = w.complete ++ words ((w.word.map some).toList ++ marks) := by
  obtain ⟨complete, word⟩ := w
  induction marks generalizing complete word with
  | nil =>
      cases word with
      | none => simp [all]
      | some piece => simp [all, words_some_nil]
  | cons mark marks ih =>
      rw [List.foldl_cons]
      cases mark with
      | none =>
          rw [read, ih]
          cases word with
          | none => simp
          | some piece => simp [words_some_none]
      | some piece' =>
          rw [read, ih]
          cases word with
          | none => simp
          | some piece => simp [words_some_some]

theorem Collected.foldl_empty (marks : List (Option (List α))) :
    (marks.foldl read empty).all = words marks := by
  rw [foldl_read]
  rfl

/-- How many words there are is up to the separators alone. -/
theorem length_words {marks marks' : List (Option (List α))}
    (h : marks.map Option.isNone = marks'.map Option.isNone) :
    (words marks).length = (words marks').length := by
  have hall : ∀ w w' : Collected α, w.complete.length = w'.complete.length →
      w.word.isNone = w'.word.isNone →
        (marks.foldl Collected.read w).all.length =
          (marks'.foldl Collected.read w').all.length := by
    induction marks generalizing marks' with
    | nil =>
        intro w w' hlen hword
        obtain rfl : marks' = [] := by simpa using h.symm
        rw [List.foldl_nil, List.foldl_nil, Collected.all, Collected.all, List.length_append,
          List.length_append, hlen, Collected.length_toList hword]
    | cons mark marks ih =>
        intro w w' hlen hword
        cases marks' with
        | nil => simp at h
        | cons mark' marks' =>
            rw [List.map_cons, List.map_cons, List.cons.injEq] at h
            rw [List.foldl_cons, List.foldl_cons]
            apply ih h.2
            · cases mark <;> cases mark' <;>
                simp_all [Collected.read, Collected.length_toList hword]
            · cases mark <;> cases mark' <;> simp_all [Collected.read]
  rw [← Collected.foldl_empty, ← Collected.foldl_empty]
  exact hall _ _ rfl rfl

/-- Nothing but the separators is left out. -/
theorem words_flatten (marks : List (Option (List α))) :
    (words marks).flatten = marks.flatMap (·.getD []) := by
  have hall : ∀ w : Collected α, (marks.foldl Collected.read w).all.flatten =
      w.all.flatten ++ marks.flatMap (·.getD []) := by
    induction marks with
    | nil => simp
    | cons mark marks ih =>
        intro w
        rw [List.foldl_cons, ih, List.flatMap_cons, ← List.append_assoc]
        congr 1
        cases mark with
        | none => simp [Collected.read, Collected.all]
        | some piece =>
            cases hword : w.word <;> simp [Collected.read, Collected.all, hword]
  rw [← Collected.foldl_empty, hall]
  rfl

end Words
