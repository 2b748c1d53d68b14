import Mathlib.Data.List.Basic

/-!
# Grammars of histories

A grammar reads a history event by event and keeps a phase.  An event that has
no place in the phase is rejected, and with it the history.
-/

structure Grammar (ε φ : Type*) where
  next : φ → ε → Option φ

namespace Grammar

variable {ε φ : Type*} (g : Grammar ε φ)

/-- The phase after a history, unless it is rejected. -/
def after : φ → List ε → Option φ
  | p, [] => some p
  | p, e :: rest => (g.next p e).bind fun q ↦ after q rest

theorem after_append (p : φ) (τ τ' : List ε) :
    g.after p (τ ++ τ') = (g.after p τ).bind fun q ↦ g.after q τ' := by
  induction τ generalizing p with
  | nil => rfl
  | cons e τ ih =>
      simp only [List.cons_append, after, Option.bind_assoc]
      congr 1
      funext q
      exact ih q

/-- Events that stay in the phase can be added to a history. -/
theorem after_append_of_quiet {p q : φ} {τ τ' : List ε} (h : g.after p τ = some q)
    (hquiet : ∀ e ∈ τ', g.next q e = some q) : g.after p (τ ++ τ') = some q := by
  rw [after_append, h, Option.bind_some]
  induction τ' with
  | nil => rfl
  | cons e τ' ih =>
      rw [after, hquiet e (by simp), Option.bind_some]
      exact ih fun e' he' ↦ hquiet e' (by simp [he'])

/-- No event has a place in the phase. -/
def Final (p : φ) : Prop := ∀ e, g.next p e = none

variable {g}

/-- What brings the history into a final phase is its last event. -/
theorem Final.eq_nil {p q : φ} (h : g.Final p) {τ : List ε} (hafter : g.after p τ = some q) :
    τ = [] := by
  cases τ with
  | nil => rfl
  | cons e τ => simp [after, h e] at hafter

/-- When every counted event is paid for out of what the phase has left, a
history has no more of them than its first phase can pay for. -/
theorem countP_add_le {left : φ → ℕ} {counted : ε → Bool}
    (hstep : ∀ p e q, g.next p e = some q → (if counted e then 1 else 0) + left q ≤ left p)
    {p q : φ} {τ : List ε} (h : g.after p τ = some q) : τ.countP counted + left q ≤ left p := by
  induction τ generalizing p with
  | nil =>
      obtain rfl := Option.some.inj h
      simp
  | cons e τ ih =>
      obtain ⟨q', hnext, hrest⟩ := Option.bind_eq_some_iff.mp h
      have htail := ih hrest
      have hhead := hstep p e q' hnext
      rw [List.countP_cons]
      omega

/-- A phase that remembers whether an event of a kind was read. -/
theorem seen_iff {seen : φ → Prop} {marked : ε → Prop}
    (hstep : ∀ p e q, g.next p e = some q → (seen q ↔ seen p ∨ marked e))
    {p q : φ} {τ : List ε} (h : g.after p τ = some q) : seen q ↔ seen p ∨ ∃ e ∈ τ, marked e := by
  induction τ generalizing p with
  | nil =>
      obtain rfl := Option.some.inj h
      simp
  | cons e τ ih =>
      obtain ⟨q', hnext, hrest⟩ := Option.bind_eq_some_iff.mp h
      rw [ih hrest, hstep p e q' hnext, or_assoc, List.exists_mem_cons_iff]

end Grammar
