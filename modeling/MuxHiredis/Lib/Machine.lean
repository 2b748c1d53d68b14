import Mathlib.Data.List.Basic
import Mathlib.Order.Defs.Unbundled

/-!
# Machines and guarded runs

A machine takes labelled steps; the label holds every choice, so that a step is
a partial function.  A guard is a condition on a step, stated of the state
before it.  A frame condition relates the states before and after a step.
-/

structure Machine (σ α : Type*) where
  start : σ → Prop
  step : σ → α → Option σ

namespace Machine

variable {σ α : Type*} (m : Machine σ α)

/-- The states of the runs all of whose steps meet the guard. -/
inductive Reach (guard : σ → α → Prop) : σ → Prop
  | start {s : σ} : m.start s → Reach guard s
  | step {s s' : σ} (a : α) : Reach guard s → guard s a → m.step s a = some s' → Reach guard s'

/-- The states of all runs. -/
def Reachable : σ → Prop := m.Reach fun _ _ ↦ True

/-- The state after a list of actions. -/
def run : σ → List α → Option σ
  | s, [] => some s
  | s, a :: rest => (m.step s a).bind fun s' ↦ run s' rest

/-- Every action of the list meets the guard when its turn comes. -/
def Meets (guard : σ → α → Prop) : σ → List α → Prop
  | _, [] => True
  | s, a :: rest =>
      guard s a ∧
        match m.step s a with
        | none => True
        | some s' => Meets guard s' rest

instance Meets.decidable (guard : σ → α → Prop) [∀ s a, Decidable (guard s a)] :
    (s : σ) → (actions : List α) → Decidable (m.Meets guard s actions)
  | _, [] => .isTrue trivial
  | s, a :: rest =>
      have : Decidable (match m.step s a with
          | none => True
          | some s' => m.Meets guard s' rest) :=
        match m.step s a with
        | none => .isTrue trivial
        | some s' => Meets.decidable guard s' rest
      inferInstanceAs (Decidable (_ ∧ _))

variable {m}

/-- What holds at the start and is kept by guarded steps holds in all guarded
runs. -/
theorem Reach.invariant {guard : σ → α → Prop} {Inv : σ → Prop}
    (hstart : ∀ s, m.start s → Inv s)
    (hstep : ∀ s a s', Inv s → guard s a → m.step s a = some s' → Inv s')
    {s : σ} (hs : m.Reach guard s) : Inv s := by
  induction hs with
  | start h0 => exact hstart _ h0
  | step a _ hg hs ih => exact hstep _ a _ ih hg hs

theorem Reach.run {guard : σ → α → Prop} {s s' : σ} (hs : m.Reach guard s) {actions : List α}
    (hmeets : m.Meets guard s actions) (h : m.run s actions = some s') : m.Reach guard s' := by
  induction actions generalizing s with
  | nil => exact Option.some.inj h ▸ hs
  | cons a rest ih =>
      obtain ⟨s₁, hstep, hrest⟩ := Option.bind_eq_some_iff.mp h
      obtain ⟨hguard, hmeets⟩ := hmeets
      rw [hstep] at hmeets
      exact ih (.step a hs hguard hstep) hmeets hrest

theorem Reachable.run {s s' : σ} (hs : m.Reachable s) {actions : List α}
    (h : m.run s actions = some s') : m.Reachable s' := by
  induction actions generalizing s with
  | nil => exact Option.some.inj h ▸ hs
  | cons a rest ih =>
      obtain ⟨s₁, hstep, hrest⟩ := Option.bind_eq_some_iff.mp h
      exact ih (.step a hs trivial hstep) hrest

/-- One machine follows the guarded runs of another when it follows their steps. -/
theorem run_simulates {τ : Type*} {m' : Machine τ α} {guard : τ → α → Prop} {R : σ → τ → Prop}
    (hstep : ∀ s t a t', R s t → guard t a → m'.step t a = some t' →
      ∃ s', m.step s a = some s' ∧ R s' t')
    {s : σ} {t t' : τ} (h : R s t) {actions : List α} (hmeets : m'.Meets guard t actions)
    (hrun : m'.run t actions = some t') : ∃ s', m.run s actions = some s' ∧ R s' t' := by
  induction actions generalizing s t with
  | nil => exact ⟨s, rfl, Option.some.inj hrun ▸ h⟩
  | cons a rest ih =>
      obtain ⟨t₁, hstep₁, hrest⟩ := Option.bind_eq_some_iff.mp hrun
      obtain ⟨hguard, hmeets⟩ := hmeets
      rw [hstep₁] at hmeets
      obtain ⟨s₁, hs₁, h₁⟩ := hstep s t a t₁ h hguard hstep₁
      obtain ⟨s', hs', h'⟩ := ih h₁ hmeets hrest
      refine ⟨s', ?_, h'⟩
      rw [run, hs₁, Option.bind_some, hs']

/-- Evaluate a run of a fixed list of actions. -/
theorem run_spec (m : Machine σ α) (s : σ) (actions : List α) (p : σ → Bool)
    (h : (m.run s actions).any p = true) : ∃ s', m.run s actions = some s' ∧ p s' = true := by
  cases hrun : m.run s actions with
  | none => simp [hrun] at h
  | some s' => exact ⟨s', rfl, by simpa [hrun] using h⟩

end Machine

/-- Every result of a partial function is related to its argument. -/
def Within {α : Type*} (R : α → α → Prop) (f : α → Option α) : Prop :=
  ∀ a b, f a = some b → R a b

namespace Within

variable {α : Type*} {R : α → α → Prop}

theorem bind [IsTrans α R] {f g : α → Option α} (hf : Within R f) (hg : Within R g) :
    Within R fun a ↦ (f a).bind g := by
  intro a c h
  obtain ⟨b, hab, hbc⟩ := Option.bind_eq_some_iff.mp h
  exact trans_of R (hf a b hab) (hg b c hbc)

/-- What every turn keeps, the loop keeps. -/
theorem foldlM [Std.Refl R] [IsTrans α R] {ι : Type*} {f : α → ι → Option α}
    (hf : ∀ i, Within R fun a ↦ f a i) (l : List ι) : Within R fun a ↦ l.foldlM f a := by
  induction l with
  | nil =>
      intro a b h
      exact Option.some.inj h ▸ refl_of R a
  | cons i l ih =>
      simp only [List.foldlM_cons]
      exact (hf i).bind ih

end Within
