import Mathlib.Data.List.Infix
import Mathlib.Tactic

/-!
# Separated words

A list is cut at the first places of a separator, from the left.  There is one way to
write a list as words with the separator between them when no separator begins within
a word.
-/

namespace Separated

variable {α : Type*} {sep s t u : List α} {ts ts' : List (List α)} {n : ℕ}

/-- The separator begins at none of the first `n` places. -/
def FreeBelow (sep s : List α) (n : ℕ) : Prop := ∀ k < n, ¬sep <+: s.drop k

theorem freeBelow_append (h : n + sep.length ≤ s.length + 1) (u : List α) :
    FreeBelow sep (s ++ u) n ↔ FreeBelow sep s n := by
  refine forall₂_congr fun k hk ↦ not_congr ?_
  rw [List.drop_append_of_le_length (by omega)]
  constructor
  · intro hboth
    apply List.prefix_of_prefix_length_le hboth (List.prefix_append _ _)
    rw [List.length_drop]
    omega
  · exact List.prefix_append_of_prefix

/-- The separator begins at a place, so this is not one of the first. -/
theorem FreeBelow.le (h : FreeBelow sep (t ++ sep ++ u) n) : n ≤ t.length := by
  by_contra hlt
  apply h t.length (not_le.mp hlt)
  rw [List.append_assoc, List.drop_left]
  exact List.prefix_append _ _

/-- No separator begins within a word, even with the separator behind the word. -/
def Apart (sep : List α) : List (List α) → Prop
  | [] => False
  | [t] => FreeBelow sep t t.length
  | t :: ts => FreeBelow sep (t ++ sep) t.length ∧ Apart sep ts

theorem Apart.ne_nil (h : Apart sep ts) : ts ≠ [] := by
  rintro rfl
  exact h

theorem apart_cons (h : ts ≠ []) :
    Apart sep (t :: ts) ↔ FreeBelow sep (t ++ sep) t.length ∧ Apart sep ts := by
  cases ts with
  | nil => exact absurd rfl h
  | cons => exact Iff.rfl

theorem freeBelow_word (u : List α) :
    FreeBelow sep (t ++ sep ++ u) t.length ↔ FreeBelow sep (t ++ sep) t.length := by
  apply freeBelow_append
  rw [List.length_append]
  omega

/-- The last word is not the first of several. -/
theorem not_word (hsep : sep ≠ []) (h : FreeBelow sep t t.length) (u v : List α) :
    t ≠ u ++ sep ++ v := by
  rintro rfl
  have hle := h.le
  have hpos := List.length_pos_iff.mpr hsep
  simp only [List.length_append] at hle
  omega

/-- The words are determined, by induction on the words. -/
theorem Apart.unique (hsep : sep ≠ []) (h : Apart sep ts) (h' : Apart sep ts')
    (heq : sep.intercalate ts = sep.intercalate ts') : ts = ts' := by
  induction ts generalizing ts' with
  | nil => exact h.elim
  | cons t ts ih =>
      obtain ⟨t', ts', rfl⟩ := List.exists_cons_of_ne_nil h'.ne_nil
      by_cases hts : ts = []
      · subst hts
        by_cases hts' : ts' = []
        · subst hts'
          rw [List.intercalate_singleton, List.intercalate_singleton] at heq
          rw [heq]
        · rw [List.intercalate_singleton, List.intercalate_cons_of_ne_nil hts'] at heq
          exact absurd heq (not_word hsep h _ _)
      · by_cases hts' : ts' = []
        · subst hts'
          rw [List.intercalate_singleton, List.intercalate_cons_of_ne_nil hts] at heq
          exact absurd heq.symm (not_word hsep h' _ _)
        · obtain ⟨hfree, hrest⟩ := (apart_cons hts).mp h
          obtain ⟨hfree', hrest'⟩ := (apart_cons hts').mp h'
          rw [List.intercalate_cons_of_ne_nil hts, List.intercalate_cons_of_ne_nil hts'] at heq
          have hle := ((freeBelow_word (sep.intercalate ts)).mpr hfree)
          have hle' := ((freeBelow_word (sep.intercalate ts')).mpr hfree')
          rw [heq] at hle
          rw [← heq] at hle'
          have hlength : t.length = t'.length := le_antisymm hle.le hle'.le
          rw [List.append_assoc, List.append_assoc] at heq
          obtain ⟨rfl, htail⟩ := List.append_inj heq hlength
          rw [ih hrest hrest' (List.append_cancel_left htail)]

end Separated
