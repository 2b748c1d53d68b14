import Mathlib.Data.List.Nodup
import Mathlib.Logic.Function.Basic
import Mathlib.Tactic

/-!
# Linked cells

Cells have addresses, and `next` gives the pointer that a cell holds; a cell that is
not allocated holds none.  `Linked next p l q` says that from the pointer `p` on the
cells are those of `l`, and that the last of them holds `q`.
-/

variable {A : Type*}

inductive Linked (next : A → Option (Option A)) : Option A → List A → Option A → Prop
  | nil (p : Option A) : Linked next p [] p
  | cons {a : A} {p q : Option A} {l : List A} (ha : next a = some p) (h : Linked next p l q) :
      Linked next (some a) (a :: l) q

namespace Linked

variable {next next' : A → Option (Option A)} {p q r : Option A} {a b : A} {l l' : List A}

theorem nil_iff : Linked next p [] q ↔ p = q := by
  constructor
  · intro h
    cases h
    rfl
  · rintro rfl
    exact .nil p

theorem cons_iff : Linked next p (a :: l) q ↔
    p = some a ∧ ∃ r, next a = some r ∧ Linked next r l q := by
  constructor
  · intro h
    cases h with
    | cons ha h => exact ⟨rfl, _, ha, h⟩
  · rintro ⟨rfl, r, ha, h⟩
    exact .cons ha h

theorem append_iff : Linked next p (l ++ l') q ↔ ∃ r, Linked next p l r ∧ Linked next r l' q := by
  induction l generalizing p with
  | nil => simp only [List.nil_append, nil_iff, exists_eq_left']
  | cons a l ih =>
      simp only [List.cons_append, cons_iff, ih]
      constructor
      · rintro ⟨rfl, m, ha, r, hl, hl'⟩
        exact ⟨r, ⟨rfl, m, ha, hl⟩, hl'⟩
      · rintro ⟨r, ⟨rfl, m, ha, hl⟩, hl'⟩
        exact ⟨rfl, m, ha, r, hl, hl'⟩

theorem append (h : Linked next p l r) (h' : Linked next r l' q) : Linked next p (l ++ l') q :=
  append_iff.mpr ⟨r, h, h'⟩

theorem congr (h : Linked next p l q) (heq : ∀ a ∈ l, next' a = next a) : Linked next' p l q := by
  induction h with
  | nil p => exact .nil p
  | cons ha _ ih =>
      refine .cons ?_ (ih fun a hmem ↦ heq a (List.mem_cons_of_mem _ hmem))
      rw [heq _ List.mem_cons_self, ha]

theorem allocated (h : Linked next p l q) (ha : a ∈ l) : next a ≠ none := by
  induction h with
  | nil p => cases ha
  | cons hb _ ih =>
      rcases List.mem_cons.mp ha with rfl | ha
      · rw [hb]
        nofun
      · exact ih ha

theorem head?_eq (h : Linked next p l none) : p = l.head? := by
  cases h with
  | nil _ => rfl
  | cons _ _ => rfl

/-- A chain that ends is determined by where it begins. -/
theorem eq_of_ends (h : Linked next p l none) (h' : Linked next p l' none) : l = l' := by
  induction l generalizing p l' with
  | nil =>
      obtain rfl := nil_iff.mp h
      cases h'
      rfl
  | cons a l ih =>
      obtain ⟨rfl, r, ha, hl⟩ := cons_iff.mp h
      cases h' with
      | cons ha' hl' =>
          obtain rfl := Option.some.inj (ha.symm.trans ha')
          rw [ih hl hl']

/-- No cell stands twice in a chain that ends. -/
theorem nodup (h : Linked next p l none) : l.Nodup := by
  induction l generalizing p with
  | nil => exact List.nodup_nil
  | cons a l ih =>
      obtain ⟨rfl, r, ha, hl⟩ := cons_iff.mp h
      refine List.nodup_cons.mpr ⟨fun hmem ↦ ?_, ih hl⟩
      obtain ⟨before, after, rfl⟩ := List.append_of_mem hmem
      obtain ⟨m, -, hafter⟩ := append_iff.mp hl
      obtain ⟨rfl, -⟩ := cons_iff.mp hafter
      have hsame := congrArg List.length (eq_of_ends h hafter)
      simp only [List.length_cons, List.length_append] at hsame
      omega

/-- The last cell is given another pointer. -/
theorem relink (h : Linked next p (l ++ [a]) q) (hsame : ∀ b ∈ l, next' b = next b)
    (ha : next' a = some r) : Linked next' p (l ++ [a]) r := by
  obtain ⟨m, hl, hlast⟩ := append_iff.mp h
  obtain ⟨rfl, -⟩ := cons_iff.mp hlast
  exact (hl.congr hsame).append (.cons ha (.nil r))

end Linked
