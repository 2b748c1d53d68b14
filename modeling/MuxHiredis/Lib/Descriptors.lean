import Mathlib.Data.List.Count
import Mathlib.Tactic

/-!
# What is done with descriptors

A history of the descriptors a program holds, the latest operation first.  The
system gives a number out again once it was closed, so that an operation on a
closed number is one on somebody else's descriptor.
-/

/-- A descriptor is got, closed, or used in some other way. -/
inductive FdOp where
  | opened (fd : ℤ)
  | closed (fd : ℤ)
  | used (fd : ℤ)
  deriving DecidableEq, Repr

namespace FdOp

/-- The number was got, and not closed since. -/
def Open (fd : ℤ) : List FdOp → Prop
  | [] => False
  | .opened n :: log => n = fd ∨ Open fd log
  | .closed n :: log => n ≠ fd ∧ Open fd log
  | .used _ :: log => Open fd log

/-- The number was closed, and not got since. -/
def Stale (fd : ℤ) : List FdOp → Prop
  | [] => False
  | .opened n :: log => n ≠ fd ∧ Stale fd log
  | .closed n :: log => n = fd ∨ Stale fd log
  | .used _ :: log => Stale fd log

/-- Only what is open is closed, and nothing is used that was closed. -/
def Sound : List FdOp → Prop
  | [] => True
  | .opened _ :: log => Sound log
  | .closed n :: log => Open n log ∧ Sound log
  | .used n :: log => ¬Stale n log ∧ Sound log

instance Open.decidable (fd : ℤ) : (log : List FdOp) → Decidable (Open fd log)
  | [] => .isFalse id
  | .opened _ :: log => have := decidable fd log; inferInstanceAs (Decidable (_ ∨ _))
  | .closed _ :: log => have := decidable fd log; inferInstanceAs (Decidable (_ ∧ _))
  | .used _ :: log => decidable fd log

instance Stale.decidable (fd : ℤ) : (log : List FdOp) → Decidable (Stale fd log)
  | [] => .isFalse id
  | .opened _ :: log => have := decidable fd log; inferInstanceAs (Decidable (_ ∧ _))
  | .closed _ :: log => have := decidable fd log; inferInstanceAs (Decidable (_ ∨ _))
  | .used _ :: log => decidable fd log

instance Sound.decidable : (log : List FdOp) → Decidable (Sound log)
  | [] => .isTrue trivial
  | .opened _ :: log => decidable log
  | .closed _ :: log => have := decidable log; inferInstanceAs (Decidable (_ ∧ _))
  | .used _ :: log => have := decidable log; inferInstanceAs (Decidable (_ ∧ _))

/-- A number is not open and closed at once. -/
theorem Open.not_stale {fd : ℤ} {log : List FdOp} (h : Open fd log) : ¬Stale fd log := by
  induction log with
  | nil => exact h.elim
  | cons op log ih =>
      intro hstale
      cases op with
      | opened n =>
          rcases h with h | h
          · exact hstale.1 h
          · exact ih h hstale.2
      | closed n =>
          rcases hstale with hstale | hstale
          · exact h.1 hstale
          · exact ih h.2 hstale
      | used n => exact ih h hstale

theorem Sound.of_append {new log : List FdOp} (h : Sound (new ++ log)) : Sound log := by
  induction new with
  | nil => exact h
  | cons op new ih =>
      cases op with
      | opened n => exact ih h
      | closed n => exact ih h.2
      | used n => exact ih h.2

/-- Every number is closed at most as often as it was got; once more was got if it
is open. -/
theorem Sound.count_closed {log : List FdOp} (h : Sound log) (fd : ℤ) :
    log.count (.closed fd) + (if Open fd log then 1 else 0) ≤ log.count (.opened fd) := by
  induction log with
  | nil => simp [Open]
  | cons op log ih =>
      cases op with
      | opened n =>
          have hrest := ih h
          by_cases hn : n = fd
          · subst hn
            simp only [Open, true_or, if_true, List.count_cons_self, List.count_cons,
              beq_iff_eq, reduceCtorEq, if_false]
            split at hrest <;> omega
          · simpa [Open, hn, List.count_cons] using hrest
      | closed n =>
          have hrest := ih h.2
          by_cases hn : n = fd
          · subst hn
            simp only [if_pos h.1] at hrest
            simpa [Open, List.count_cons] using hrest
          · simpa [Open, hn, List.count_cons] using hrest
      | used n => simpa [Open, List.count_cons] using ih h.2

end FdOp
