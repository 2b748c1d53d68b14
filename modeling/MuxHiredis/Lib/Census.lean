import Mathlib.Data.Finset.Card
import Mathlib.Order.Interval.Finset.Nat
import Mathlib.Logic.Function.Basic

/-!
# Counting threads by their place

The threads are numbered in the order in which they come; `census` is the set of
the first `n` whose place satisfies a predicate.
-/

variable {α : Type*}

def census (n : ℕ) (place : ℕ → α) (p : α → Prop) [DecidablePred p] : Finset ℕ :=
  (Finset.range n).filter fun i ↦ p (place i)

section Census

variable {n i : ℕ} {place : ℕ → α} {a : α} {p : α → Prop} [DecidablePred p]

theorem mem_census : i ∈ census n place p ↔ i < n ∧ p (place i) := by
  simp [census]

theorem census_update_same (h : p a ↔ p (place i)) :
    census n (Function.update place i a) p = census n place p := by
  ext j
  rw [mem_census, mem_census]
  by_cases hj : j = i
  · subst hj
    rw [Function.update_self, h]
  · rw [Function.update_of_ne hj]

theorem census_update_leave (ha : ¬p a) :
    census n (Function.update place i a) p = (census n place p).erase i := by
  ext j
  rw [Finset.mem_erase, mem_census, mem_census]
  by_cases hj : j = i
  · subst hj
    simp [ha]
  · simp [hj]

theorem census_update_join (hi : i < n) (ha : p a) :
    census n (Function.update place i a) p = insert i (census n place p) := by
  ext j
  rw [Finset.mem_insert, mem_census, mem_census]
  by_cases hj : j = i
  · subst hj
    simp [ha, hi]
  · simp [hj]

theorem card_census_leave (hi : i < n) (hp : p (place i)) (ha : ¬p a) :
    (census n (Function.update place i a) p).card + 1 = (census n place p).card := by
  rw [census_update_leave ha]
  exact Finset.card_erase_add_one (mem_census.mpr ⟨hi, hp⟩)

theorem card_census_join (hi : i < n) (hp : ¬p (place i)) (ha : p a) :
    (census n (Function.update place i a) p).card = (census n place p).card + 1 := by
  rw [census_update_join hi ha]
  apply Finset.card_insert_of_notMem
  exact fun hmem ↦ hp (mem_census.mp hmem).2

theorem card_census_enter :
    (census (n + 1) (Function.update place n a) p).card ≤ (census n place p).card + 1 := by
  have hsubset : census (n + 1) (Function.update place n a) p ⊆ insert n (census n place p) := by
    intro j hj
    obtain ⟨hlt, hp⟩ := mem_census.mp hj
    rw [Finset.mem_insert, mem_census]
    by_cases hn : j = n
    · exact .inl hn
    · rw [Function.update_of_ne hn] at hp
      exact .inr ⟨by omega, hp⟩
  exact (Finset.card_le_card hsubset).trans (Finset.card_insert_le _ _)

theorem census_enter (ha : ¬p a) :
    census (n + 1) (Function.update place n a) p = census n place p := by
  ext j
  rw [mem_census, mem_census]
  by_cases hn : j = n
  · subst hn
    simp [ha]
  · rw [Function.update_of_ne hn]
    constructor
    · rintro ⟨hlt, hp⟩
      exact ⟨by omega, hp⟩
    · rintro ⟨hlt, hp⟩
      exact ⟨by omega, hp⟩

theorem length_le_card_census {l : List ℕ} (hnodup : l.Nodup)
    (h : ∀ i ∈ l, i < n ∧ p (place i)) : l.length ≤ (census n place p).card := by
  rw [← List.toFinset_card_of_nodup hnodup]
  apply Finset.card_le_card
  intro i hi
  exact mem_census.mpr (h i (List.mem_toFinset.mp hi))

end Census
