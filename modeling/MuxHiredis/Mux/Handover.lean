import MuxHiredis.Mux.Client

/-!
# The wait of `xRedisFree`

`xRedisFree` queues the context, takes its `xc` out of the reconnect list and
waits on `xc->cond`; the event loop takes the context from the queue, tears it
down and signals `xc->cond`.  Each section under a mutex is a step.
-/

namespace MuxHiredis

/-- Where a thread stands in `xRedisFree`. -/
inductive FreerAt where
  | absent
  | unlisting (needWait : Bool)
  | entering
  | waiting
  | woken
  | done
  deriving DecidableEq

/-- The event loop, in `freeAsyncContextDeal` with `client.mutex` held: before the
signal of `__redisAsyncFree`, and after it. -/
inductive DealAt where
  | idle
  | dealing (x : ℕ)
  | signalled (x : ℕ)
  deriving DecidableEq

/-- The threads in `xRedisFree`, one for each `xc`, and the event loop.  The context
of an `xc` goes by the same number; `ctx` says whether there is one, and `ended`
whether the event loop tore it down and issued its signal. -/
structure Handover where
  freers : ℕ → FreerAt
  ctx : ℕ → Bool
  status : ℕ → ℤ
  freeAcList : List ℕ
  ended : ℕ → Bool
  loop : DealAt

namespace Handover

inductive Action where
  | queue (x : ℕ)
  | unlist (x : ℕ)
  | wait (x : ℕ)
  | wake (x : ℕ)
  | leave (x : ℕ)
  | deal
  | signal
  | finish

def setFreer (s : Handover) (x : ℕ) (at' : FreerAt) : Handover :=
  { s with freers := Function.update s.freers x at' }

/-- The first section, under `client.mutex`. -/
def queue (s : Handover) (x : ℕ) : Option Handover :=
  if s.freers x = .absent ∧ s.loop = .idle then
    if s.ctx x then
      some { s.setFreer x (.unlisting true) with
        status := Function.update s.status x (s.status x + freedContext)
        freeAcList := s.freeAcList ++ [x] }
    else some (s.setFreer x (.unlisting false))
  else none

/-- The second section, under `client.reconn_mutex`. -/
def unlist (s : Handover) (x : ℕ) : Option Handover :=
  match s.freers x with
  | .unlisting true => some (s.setFreer x .entering)
  | .unlisting false => some (s.setFreer x .done)
  | _ => none

/-- `pthread_cond_wait`, under `xc->mutex`. -/
def wait (s : Handover) (x : ℕ) : Option Handover :=
  if s.freers x = .entering then some (s.setFreer x .waiting) else none

/-- A wait may also end without a signal. -/
def wake (s : Handover) (x : ℕ) : Option Handover :=
  if s.freers x = .waiting then some (s.setFreer x .woken) else none

def leave (s : Handover) (x : ℕ) : Option Handover :=
  if s.freers x = .woken then some (s.setFreer x .done) else none

/-- `freeAsyncContextDeal` takes the first context. -/
def deal (s : Handover) : Option Handover :=
  match s.loop, s.freeAcList with
  | .idle, x :: rest => some { s with freeAcList := rest, loop := .dealing x }
  | _, _ => none

/-- The last section of `__redisAsyncFree`, under `xc->mutex`. -/
def signal (s : Handover) : Option Handover :=
  match s.loop with
  | .dealing x =>
      if s.status x = freedContext then
        some { s.setFreer x (if s.freers x = .waiting then .woken else s.freers x) with
          ended := Function.update s.ended x true
          loop := .signalled x }
      else some { s with loop := .signalled x }
  | _ => none

/-- `redisFree`; the loop of `freeAsyncContextDeal` goes on. -/
def finish (s : Handover) : Option Handover :=
  match s.loop, s.freeAcList with
  | .signalled _, [] => some { s with loop := .idle }
  | .signalled _, x :: rest => some { s with freeAcList := rest, loop := .dealing x }
  | _, _ => none

def step (s : Handover) : Action → Option Handover
  | .queue x => s.queue x
  | .unlist x => s.unlist x
  | .wait x => s.wait x
  | .wake x => s.wake x
  | .leave x => s.leave x
  | .deal => s.deal
  | .signal => s.signal
  | .finish => s.finish

/-- No thread is in `xRedisFree` yet. -/
def Start (s : Handover) : Prop :=
  (∀ x, s.freers x = .absent) ∧ (∀ x, s.status x = 0) ∧ s.freeAcList = [] ∧
    (∀ x, s.ended x = false) ∧ s.loop = .idle

def machine : Machine Handover Action := ⟨Start, step⟩

end Handover

/-- The thread waits for a signal, or will go on to wait. -/
def FreerAt.Expects : FreerAt → Prop
  | .unlisting needWait => needWait = true
  | .entering | .waiting => True
  | _ => False

/-- The thread is on its way to the wait. -/
def FreerAt.Underway (at' : FreerAt) : Prop := at' = .unlisting true ∨ at' = .entering

instance : DecidablePred FreerAt.Underway :=
  fun at' ↦ inferInstanceAs (Decidable (at' = .unlisting true ∨ at' = .entering))

theorem FreerAt.Underway.expects {at' : FreerAt} (h : at'.Underway) : at'.Expects := by
  rcases h with rfl | rfl
  · rfl
  · trivial

theorem FreerAt.Expects.cases {at' : FreerAt} (h : at'.Expects) :
    at'.Underway ∨ at' = .waiting := by
  cases at' with
  | unlisting needWait =>
      obtain rfl : needWait = true := h
      exact .inl (.inl rfl)
  | entering => exact .inl (.inr rfl)
  | waiting => exact .inr rfl
  | absent | woken | done => exact h.elim

namespace Handover

/-- No thread waits, or will wait, for the signal of a context that the event loop
is done with. -/
def Delivered (s : Handover) : Prop := ∀ x, s.ended x = true → ¬(s.freers x).Expects

/-- The condition on the event loop: it takes no context whose thread is still on its
way to the wait. -/
def Heard (s : Handover) : Action → Prop
  | .deal | .finish => ∀ x ∈ s.freeAcList.head?, ¬(s.freers x).Underway
  | _ => True

instance (s : Handover) : DecidablePred s.Heard
  | .deal | .finish =>
      inferInstanceAs (Decidable (∀ x ∈ s.freeAcList.head?, ¬(s.freers x).Underway))
  | .queue _ | .unlist _ | .wait _ | .wake _ | .leave _ | .signal => .isTrue trivial

/-- A context that was given to the event loop has a thread in `xRedisFree`, and this
thread has come to its wait when the context is dealt with. -/
structure Met (s : Handover) : Prop where
  delivered : s.Delivered
  unseen : ∀ x, s.freers x = .absent →
    s.ended x = false ∧ x ∉ s.freeAcList ∧ s.loop ≠ .dealing x ∧ s.status x = 0
  arrived : ∀ x, s.loop = .dealing x → ¬(s.freers x).Underway
  marked : ∀ x ∈ s.freeAcList, s.status x = freedContext

theorem Met.advance {s : Handover} (h : s.Met) {x : ℕ} {at' : FreerAt}
    (hpresent : s.freers x ≠ .absent) (hat : at' ≠ .absent)
    (hexpects : at'.Expects → (s.freers x).Expects)
    (hunderway : at'.Underway → (s.freers x).Underway) : (s.setFreer x at').Met where
  delivered := by
    intro x' hended
    by_cases hx : x' = x
    · subst hx
      simp only [setFreer, Function.update_self]
      exact fun he ↦ h.delivered x' hended (hexpects he)
    · simp only [setFreer, Function.update_of_ne hx]
      exact h.delivered x' hended
  unseen := by
    intro x' habsent
    by_cases hx : x' = x
    · subst hx
      simp [setFreer, hat] at habsent
    · simp only [setFreer, Function.update_of_ne hx] at habsent
      exact h.unseen x' habsent
  arrived := by
    intro x' hloop
    by_cases hx : x' = x
    · subst hx
      simp only [setFreer, Function.update_self]
      exact fun hu ↦ h.arrived x' hloop (hunderway hu)
    · simp only [setFreer, Function.update_of_ne hx]
      exact h.arrived x' hloop
  marked := h.marked

theorem Met.queue {s s' : Handover} (h : s.Met) {x : ℕ} (hstep : s.queue x = some s') :
    s'.Met := by
  unfold Handover.queue at hstep
  rw [Option.ite_none_right_eq_some] at hstep
  obtain ⟨⟨habsent, hidle⟩, hstep⟩ := hstep
  obtain ⟨hended, hout, -, hstatus⟩ := h.unseen x habsent
  have hdelivered : ∀ at', ∀ x', s.ended x' = true →
      ¬(Function.update s.freers x at' x').Expects := by
    intro at' x' hx'
    have hne : x' ≠ x := by
      rintro rfl
      simp [hended] at hx'
    rw [Function.update_of_ne hne]
    exact h.delivered x' hx'
  split at hstep <;> obtain rfl := Option.some.inj hstep
  · refine ⟨hdelivered _, fun x' habsent' ↦ ?_, fun x' hloop ↦ ?_, fun x' hx' ↦ ?_⟩
    · have hne : x' ≠ x := by
        rintro rfl
        simp [setFreer] at habsent'
      simp only [setFreer, Function.update_of_ne hne] at habsent'
      obtain ⟨hended', hout', hloop', hstatus'⟩ := h.unseen x' habsent'
      exact ⟨hended', by simp [hout', hne], hloop', by simp [hne, hstatus']⟩
    · exact absurd (hidle.symm.trans hloop) (by simp)
    · by_cases hne : x' = x
      · simp [hne, hstatus]
      · have hx' : x' ∈ s.freeAcList := by simpa [hne] using hx'
        simp [hne, h.marked x' hx']
  · refine ⟨hdelivered _, fun x' habsent' ↦ ?_, fun x' hloop ↦ ?_, h.marked⟩
    · have hne : x' ≠ x := by
        rintro rfl
        simp [setFreer] at habsent'
      simp only [setFreer, Function.update_of_ne hne] at habsent'
      exact h.unseen x' habsent'
    · exact absurd (hidle.symm.trans hloop) (by simp)

theorem Met.signal {s s' : Handover} (h : s.Met) (hstep : s.signal = some s') : s'.Met := by
  unfold Handover.signal at hstep
  split at hstep
  · rename_i x hloop
    have hpresent : s.freers x ≠ .absent := fun habsent ↦ (h.unseen x habsent).2.2.1 hloop
    have hpast : ¬(if s.freers x = .waiting then FreerAt.woken else s.freers x).Expects := by
      split
      · exact id
      · rename_i hwaiting
        intro hexpects
        exact hexpects.cases.elim (h.arrived x hloop) hwaiting
    split at hstep <;> obtain rfl := Option.some.inj hstep
    · refine ⟨fun x' hended ↦ ?_, fun x' habsent ↦ ?_, by simp, h.marked⟩
      · by_cases hx : x' = x
        · subst hx
          simpa [setFreer] using hpast
        · simp only [setFreer, Function.update_of_ne hx] at hended ⊢
          exact h.delivered x' hended
      · have hx : x' ≠ x := by
          rintro rfl
          simp only [setFreer, Function.update_self] at habsent
          split at habsent
          · simp at habsent
          · exact hpresent habsent
        simp only [setFreer, Function.update_of_ne hx] at habsent ⊢
        obtain ⟨hended, hout, -, hstatus⟩ := h.unseen x' habsent
        exact ⟨hended, hout, by simp, hstatus⟩
    · refine ⟨h.delivered, fun x' habsent ↦ ?_, by simp, h.marked⟩
      obtain ⟨hended, hout, -, hstatus⟩ := h.unseen x' habsent
      exact ⟨hended, hout, by simp, hstatus⟩
  · simp at hstep

theorem Met.take {s : Handover} (h : s.Met) {x : ℕ} {rest : List ℕ}
    (hlist : s.freeAcList = x :: rest) (harrived : ¬(s.freers x).Underway) :
    { s with freeAcList := rest, loop := .dealing x }.Met := by
  refine ⟨h.delivered, fun x' habsent ↦ ?_, fun x' hloop ↦ ?_, fun x' hx' ↦ ?_⟩
  · obtain ⟨hended, hout, -, hstatus⟩ := h.unseen x' habsent
    rw [hlist, List.mem_cons, not_or] at hout
    refine ⟨hended, hout.2, fun hloop ↦ hout.1 ?_, hstatus⟩
    exact (DealAt.dealing.inj hloop).symm
  · obtain rfl := DealAt.dealing.inj hloop
    exact harrived
  · exact h.marked x' (by simp [hlist, hx'])

theorem Met.step {s s' : Handover} (h : s.Met) {a : Action} (hheard : s.Heard a)
    (hstep : s.step a = some s') : s'.Met := by
  cases a with
  | queue x => exact h.queue hstep
  | unlist x =>
      simp only [Handover.step, unlist] at hstep
      split at hstep
      · rename_i hat
        obtain rfl := Option.some.inj hstep
        exact h.advance (by simp [hat]) (by simp) (fun _ ↦ by rw [hat]; rfl)
          fun _ ↦ .inl hat
      · rename_i hat
        obtain rfl := Option.some.inj hstep
        exact h.advance (by simp [hat]) (by simp) False.elim fun hu ↦ hu.expects.elim
      · simp at hstep
  | wait x =>
      simp only [Handover.step, wait, Option.ite_none_right_eq_some, Option.some.injEq] at hstep
      obtain ⟨hat, rfl⟩ := hstep
      exact h.advance (by simp [hat]) (by simp) (fun _ ↦ by rw [hat]; trivial)
        fun _ ↦ .inr hat
  | wake x =>
      simp only [Handover.step, wake, Option.ite_none_right_eq_some, Option.some.injEq] at hstep
      obtain ⟨hat, rfl⟩ := hstep
      exact h.advance (by simp [hat]) (by simp) False.elim fun hu ↦ hu.expects.elim
  | leave x =>
      simp only [Handover.step, leave, Option.ite_none_right_eq_some, Option.some.injEq] at hstep
      obtain ⟨hat, rfl⟩ := hstep
      exact h.advance (by simp [hat]) (by simp) False.elim fun hu ↦ hu.expects.elim
  | deal =>
      simp only [Handover.step, deal] at hstep
      split at hstep
      · rename_i hlist
        obtain rfl := Option.some.inj hstep
        exact h.take hlist (hheard _ (by simp [hlist]))
      · simp at hstep
  | signal => exact h.signal hstep
  | finish =>
      simp only [Handover.step, finish] at hstep
      split at hstep
      · obtain rfl := Option.some.inj hstep
        refine ⟨h.delivered, fun x habsent ↦ ?_, by simp, h.marked⟩
        obtain ⟨hended, hout, -, hstatus⟩ := h.unseen x habsent
        exact ⟨hended, hout, by simp, hstatus⟩
      · rename_i hlist
        obtain rfl := Option.some.inj hstep
        exact h.take hlist (hheard _ (by simp [hlist]))
      · simp at hstep

theorem Met.reach {s : Handover} (h : machine.Reach Heard s) : s.Met := by
  refine h.invariant ?_ fun s a s' hs ↦ hs.step
  rintro s ⟨-, hstatus, hlist, hended, hidle⟩
  refine ⟨fun x hx ↦ ?_, fun x _ ↦ ?_, fun x hloop ↦ ?_, fun x hx ↦ ?_⟩
  · simp [hended x] at hx
  · exact ⟨hended x, by simp [hlist], by simp [hidle], hstatus x⟩
  · simp [hidle] at hloop
  · simp [hlist] at hx

/-- A step against the condition takes a context whose thread is on its way. -/
theorem takes_underway {s s' : Handover} {a : Action} (hheard : ¬s.Heard a)
    (hstep : s.step a = some s') :
    ∃ x rest, s.freeAcList = x :: rest ∧ (s.freers x).Underway ∧
      s' = { s with freeAcList := rest, loop := .dealing x } := by
  cases a with
  | queue | unlist | wait | wake | leave | signal => exact absurd trivial hheard
  | deal | finish =>
      simp only [Heard, not_forall, not_not] at hheard
      obtain ⟨x, hx, hunderway⟩ := hheard
      obtain ⟨rest, hlist⟩ := List.head?_eq_some_iff.mp hx
      refine ⟨x, rest, hlist, hunderway, ?_⟩
      simp only [Handover.step, deal, finish, hlist] at hstep
      split at hstep <;> simp_all

/-- The signal for a context whose thread is on its way is missed. -/
theorem signal_underway {s : Handover} {x : ℕ} (hloop : s.loop = .dealing x)
    (hmarked : s.status x = freedContext) (hunderway : (s.freers x).Underway) :
    ∃ s', s.signal = some s' ∧ ¬s'.Delivered := by
  have hwaiting : s.freers x ≠ .waiting := by
    rintro hat
    simp [hat, FreerAt.Underway] at hunderway
  refine ⟨_, by simp only [Handover.signal, hloop, if_pos hmarked]; rfl, fun h ↦ ?_⟩
  refine h x (by simp) ?_
  simpa [setFreer, hwaiting] using hunderway.expects

/-- Contexts for every `xc`, and nobody frees one yet. -/
def fresh : Handover where
  freers := fun _ ↦ .absent
  ctx := fun _ ↦ true
  status := fun _ ↦ 0
  freeAcList := []
  ended := fun _ ↦ false
  loop := .idle

theorem fresh_start : fresh.Start :=
  ⟨fun _ ↦ rfl, fun _ ↦ rfl, rfl, fun _ ↦ rfl, rfl⟩

end Handover

end MuxHiredis
