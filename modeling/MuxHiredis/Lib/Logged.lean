import Mathlib.Data.List.Basic
import Mathlib.Tactic

/-!
# Calls that write a log

States carry a log that calls only add to, and one entry of the log is a bad
mark.  `Ends` states what is known of a call as long as the mark was not made:
when everything offered to the call is ordinary it has a result and makes no
mark, and a result without the mark satisfies a postcondition.
-/

/-- Something that carries a log of entries `ε`. -/
class Logged (ε : outParam Type*) (α : Type*) where
  log : α → List ε

namespace Logged

variable {ε α β γ : Type*} [Logged ε α] [Logged ε β] [Logged ε γ]

/-- The mark was not made. -/
def Clean (bad : ε) (a : α) : Prop := bad ∉ log a

/-- A call only adds to the log. -/
def Extends (f : α → Option β) : Prop := ∀ a b, f a = some b → log a <+: log b

structure Ends (bad : ε) (ordinary : Prop) (r : Option α) (P : α → Prop) : Prop where
  total : ordinary → ∃ a, r = some a ∧ Clean bad a
  sound : ∀ a, r = some a → Clean bad a → P a

theorem Extends.some {f : α → β} (h : ∀ a, log a <+: log (f a)) :
    Extends fun a ↦ some (f a) := by
  intro a b hab
  exact Option.some.inj hab ▸ h a

theorem Extends.bind {f : α → Option β} {g : β → Option γ} (hf : Extends f) (hg : Extends g) :
    Extends fun a ↦ (f a).bind g := by
  intro a c hac
  obtain ⟨b, hab, hbc⟩ := Option.bind_eq_some_iff.mp hac
  exact (hf a b hab).trans (hg b c hbc)

theorem Extends.map {f : α → Option β} {g : β → γ} (hf : Extends f)
    (hg : ∀ b, log b <+: log (g b)) : Extends fun a ↦ (f a).map g := by
  intro a c hac
  obtain ⟨b, hab, rfl⟩ := Option.map_eq_some_iff.mp hac
  exact (hf a b hab).trans (hg b)

theorem Extends.foldlM {ι : Type*} {f : α → ι → Option α} (hf : ∀ i, Extends fun a ↦ f a i)
    (l : List ι) : Extends fun a ↦ l.foldlM f a := by
  induction l with
  | nil => exact Extends.some fun a ↦ List.prefix_rfl
  | cons i l ih =>
      simp only [List.foldlM_cons]
      exact (hf i).bind ih

section Ends

variable {bad : ε} {ordinary : Prop} {P : α → Prop} {Q : β → Prop}

theorem Ends.pure {a : α} (hclean : Clean bad a) (h : P a) : Ends bad ordinary (some a) P :=
  ⟨fun _ ↦ ⟨a, rfl, hclean⟩, fun _ hb _ ↦ Option.some.inj hb ▸ h⟩

theorem Ends.mono {r : Option α} {P' : α → Prop} (h : Ends bad ordinary r P)
    (himp : ∀ a, Clean bad a → P a → P' a) : Ends bad ordinary r P' :=
  ⟨h.total, fun a ha hclean ↦ himp a hclean (h.sound a ha hclean)⟩

theorem Ends.imp {ordinary' : Prop} {r : Option α} (h : Ends bad ordinary r P)
    (himp : ordinary' → ordinary) : Ends bad ordinary' r P :=
  ⟨fun hord ↦ h.total (himp hord), h.sound⟩

theorem Ends.bind {r : Option α} {f : α → Option β} (h : Ends bad ordinary r P)
    (hgrows : Extends f) (hf : ∀ a, Clean bad a → P a → Ends bad ordinary (f a) Q) :
    Ends bad ordinary (r.bind f) Q := by
  refine ⟨fun hord ↦ ?_, fun b hb hclean ↦ ?_⟩
  · obtain ⟨a, ha, hclean⟩ := h.total hord
    rw [ha, Option.bind_some]
    exact (hf a hclean (h.sound a ha hclean)).total hord
  · obtain ⟨a, ha, hab⟩ := Option.bind_eq_some_iff.mp hb
    have hclean' : Clean bad a := fun hmem ↦ hclean ((hgrows a b hab).subset hmem)
    exact (hf a hclean' (h.sound a ha hclean')).sound b hab hclean

theorem Ends.map {r : Option α} {f : α → β} (h : Ends bad ordinary r P)
    (hsame : ∀ a, log (f a) = log a) (hf : ∀ a, Clean bad a → P a → Q (f a)) :
    Ends bad ordinary (r.map f) Q := by
  rw [Option.map_eq_bind]
  refine h.bind (Extends.some fun a ↦ (hsame a).symm ▸ List.prefix_rfl) fun a hclean ha ↦
    Ends.pure ?_ (hf a hclean ha)
  rw [Clean, hsame]
  exact hclean

/-- An invariant of every turn is an invariant of the loop. -/
theorem Ends.foldlM {ι : Type*} {f : α → ι → Option α} {l : List ι}
    (hgrows : ∀ i, Extends fun a ↦ f a i)
    (hf : ∀ i ∈ l, ∀ a, Clean bad a → P a → Ends bad ordinary (f a i) P) {a : α}
    (hclean : Clean bad a) (h : P a) : Ends bad ordinary (l.foldlM f a) P := by
  induction l generalizing a with
  | nil => exact Ends.pure hclean h
  | cons i l ih =>
      rw [List.foldlM_cons]
      refine (hf i (by simp) a hclean h).bind (Extends.foldlM hgrows l) fun b hb hPb ↦ ?_
      exact ih (fun j hj ↦ hf j (by simp [hj])) hb hPb

end Ends

end Logged
