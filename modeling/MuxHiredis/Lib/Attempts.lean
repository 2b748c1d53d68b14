import Mathlib.Data.List.Basic
import Mathlib.Tactic

/-!
# One attempt after the other

A sequence of attempts of which each is done, ends everything, passes on to the
next candidate or is made again for the same one.  There is a number of
candidates, and a number of times an attempt may be made again.
-/

namespace Attempts

inductive Kind where
  | done | stop | next | again
  deriving DecidableEq, Repr

/-- From the attempt `k` on one is done, before the candidates and the times to
make one again are used up, and before one ends everything. -/
def Succeeds (kind : ℕ → Kind) (candidates times k : ℕ) : Prop :=
  ∃ d, kind (k + d) = .done ∧ (∀ i < d, kind (k + i) = .next ∨ kind (k + i) = .again) ∧
    (List.range d).countP (fun i ↦ kind (k + i) = .next) < candidates ∧
    (List.range d).countP (fun i ↦ kind (k + i) = .again) < times

variable {kind : ℕ → Kind} {candidates times k : ℕ}

theorem countP_range_succ (p : ℕ → Bool) (d : ℕ) :
    (List.range (d + 1)).countP (fun i ↦ p (k + i)) =
      (List.range d).countP (fun i ↦ p (k + 1 + i)) + if p k then 1 else 0 := by
  rw [List.range_succ_eq_map, List.countP_cons, List.countP_map]
  have hshift : (fun i ↦ p (k + i)) ∘ Nat.succ = fun i ↦ p (k + 1 + i) := by
    funext i
    rw [Function.comp_apply, Nat.succ_eq_add_one, Nat.add_assoc, Nat.add_comm 1]
  rw [hshift]
  rfl

theorem not_succeeds_candidates : ¬Succeeds kind 0 times k := by
  rintro ⟨d, -, -, hc, -⟩
  omega

theorem not_succeeds_times : ¬Succeeds kind candidates 0 k := by
  rintro ⟨d, -, -, -, ht⟩
  omega

theorem succeeds_done (h : kind k = .done) (hc : 0 < candidates) (ht : 0 < times) :
    Succeeds kind candidates times k :=
  ⟨0, h, fun i hi ↦ by omega, hc, ht⟩

theorem not_succeeds_stop (h : kind k = .stop) : ¬Succeeds kind candidates times k := by
  rintro ⟨d, hdone, hbefore, -, -⟩
  cases d with
  | zero =>
      rw [Nat.add_zero, h] at hdone
      cases hdone
  | succ d =>
      have hk := hbefore 0 (Nat.succ_pos d)
      rw [Nat.add_zero, h] at hk
      rcases hk with hk | hk <;> cases hk

/-- What is true of an attempt that is not the last one is true of those after it. -/
theorem succeeds_succ (h : kind k = .next ∨ kind k = .again) :
    Succeeds kind candidates times k ↔
      ∃ d, kind (k + 1 + d) = .done ∧
        (∀ i < d, kind (k + 1 + i) = .next ∨ kind (k + 1 + i) = .again) ∧
        (List.range d).countP (fun i ↦ kind (k + 1 + i) = .next) +
          (if kind k = .next then 1 else 0) < candidates ∧
        (List.range d).countP (fun i ↦ kind (k + 1 + i) = .again) +
          (if kind k = .again then 1 else 0) < times := by
  have hcount : ∀ (x : Kind) (d : ℕ),
      (List.range (d + 1)).countP (fun i ↦ kind (k + i) = x) =
        (List.range d).countP (fun i ↦ kind (k + 1 + i) = x) + if kind k = x then 1 else 0 := by
    intro x d
    rw [countP_range_succ (fun i ↦ decide (kind i = x))]
    simp only [decide_eq_true_eq]
  constructor
  · rintro ⟨d, hdone, hbefore, hc, ht⟩
    cases d with
    | zero =>
        rw [Nat.add_zero] at hdone
        rcases h with h | h <;> (rw [h] at hdone; cases hdone)
    | succ d =>
        rw [hcount] at hc ht
        rw [← Nat.add_assoc, Nat.add_right_comm] at hdone
        refine ⟨d, hdone, fun i hi ↦ ?_, hc, ht⟩
        have := hbefore (i + 1) (by omega)
        rwa [← Nat.add_assoc, Nat.add_right_comm] at this
  · rintro ⟨d, hdone, hbefore, hc, ht⟩
    refine ⟨d + 1, ?_, fun i hi ↦ ?_, ?_, ?_⟩
    · rwa [← Nat.add_assoc, Nat.add_right_comm]
    · cases i with
      | zero => exact h
      | succ i =>
          rw [← Nat.add_assoc, Nat.add_right_comm]
          exact hbefore i (by omega)
    · rwa [hcount]
    · rwa [hcount]

theorem succeeds_next (h : kind k = .next) :
    Succeeds kind (candidates + 1) times k ↔ Succeeds kind candidates times (k + 1) := by
  rw [succeeds_succ (.inl h), h]
  simp [Succeeds]

theorem succeeds_again (h : kind k = .again) :
    Succeeds kind candidates (times + 1) k ↔ Succeeds kind candidates times (k + 1) := by
  rw [succeeds_succ (.inr h), h]
  simp [Succeeds]

end Attempts
