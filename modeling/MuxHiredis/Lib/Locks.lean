import Mathlib.Data.List.Nodup
import Mathlib.Logic.Function.Basic
import Mathlib.Logic.Relation

/-!
# Threads that take locks

A thread runs a list of operations.  It takes and releases mutexes, waits for a
signal under one of them, and acts on data that all threads share.  To call a
function that can block is one operation, to return from it another.  A
discipline says which mutexes a thread may hold at once and in which order it
took them.
-/

namespace Locks

/-- `locking` is a thread inside of a call for a mutex, `waiting` one that waits
for a signal and takes the mutex again when it wakes up. -/
inductive Op (M A : Type*) where
  | lock (m : M)
  | locking (m : M)
  | unlock (m : M)
  | wait (m : M)
  | waiting (m : M)
  | act (a : A)
  deriving DecidableEq

def Op.requested {M A : Type*} : List (Op M A) → Option M
  | .locking m :: _ => some m
  | _ => none

def Op.sleeping {M A : Type*} : List (Op M A) → Option M
  | .waiting m :: _ => some m
  | _ => none

/-- What an act does to the data, and the operations that it goes on with. -/
structure Acts (M A D : Type*) where
  perform : A → D → D
  expand : A → D → List (Op M A)

structure Threads (T M A D : Type*) where
  owner : M → Option T
  code : T → List (Op M A)
  data : D

namespace Threads

variable {T M A D : Type*}

def goto [DecidableEq T] (s : Threads T M A D) (t : T) (p : List (Op M A)) : Threads T M A D :=
  { s with code := Function.update s.code t p }

def setOwner [DecidableEq M] (s : Threads T M A D) (m : M) (o : Option T) : Threads T M A D :=
  { s with owner := Function.update s.owner m o }

/-- The next operation of a thread.  A sleeper may wake up at any time. -/
def exec [DecidableEq T] [DecidableEq M] (acts : Acts M A D) (s : Threads T M A D) (t : T) :
    Option (Threads T M A D) :=
  match s.code t with
  | [] => none
  | .lock m :: p => some (s.goto t (.locking m :: p))
  | .locking m :: p => if s.owner m = none then some ((s.goto t p).setOwner m (some t)) else none
  | .unlock m :: p => some ((s.goto t p).setOwner m none)
  | .wait m :: p => some ((s.goto t (.waiting m :: p)).setOwner m none)
  | .waiting m :: p => some (s.goto t (.locking m :: p))
  | .act a :: p =>
      some { s.goto t (acts.expand a s.data ++ p) with data := acts.perform a s.data }

/-- A thread that is not running starts to run. -/
def call [DecidableEq T] (s : Threads T M A D) (t : T) (p : List (Op M A)) :
    Option (Threads T M A D) :=
  if s.code t = [] then some (s.goto t p) else none

/-- The mutex that a thread is blocked at or about to get. -/
def requested (s : Threads T M A D) (t : T) : Option M := Op.requested (s.code t)

/-- The mutex under which a thread waits for a signal. -/
def sleeping (s : Threads T M A D) (t : T) : Option M := Op.sleeping (s.code t)

theorem requested_of_sleeping {s : Threads T M A D} {t : T} {m : M}
    (h : s.sleeping t = some m) : s.requested t = none := by
  unfold sleeping Op.sleeping at h
  split at h
  · rename_i hcode
    simp [requested, hcode, Op.requested]
  · simp at h

theorem exec_other [DecidableEq T] [DecidableEq M] {acts : Acts M A D} {s s' : Threads T M A D}
    {t : T} (hstep : s.exec acts t = some s') {t' : T} (hne : t' ≠ t) :
    s'.code t' = s.code t' := by
  unfold Threads.exec at hstep
  split at hstep
  · simp at hstep
  all_goals
    try rw [Option.ite_none_right_eq_some] at hstep
    try replace hstep := hstep.2
    obtain rfl := Option.some.inj hstep
    simp [Threads.goto, Threads.setOwner, hne]

theorem exec_owner [DecidableEq T] [DecidableEq M] {acts : Acts M A D} {s s' : Threads T M A D}
    {t : T} (hstep : s.exec acts t = some s') {m : M} {t' : T}
    (howner : s'.owner m = some t') :
    s.owner m = some t' ∨ t' = t ∧ s.requested t = some m := by
  unfold Threads.exec at hstep
  split at hstep
  · simp at hstep
  · obtain rfl := Option.some.inj hstep
    exact Or.inl howner
  · rename_i m' p hcode
    rw [Option.ite_none_right_eq_some] at hstep
    obtain ⟨-, hstep⟩ := hstep
    obtain rfl := Option.some.inj hstep
    by_cases hm : m = m'
    · subst hm
      right
      constructor
      · simpa [Threads.setOwner, eq_comm] using howner
      · simp [Threads.requested, hcode, Op.requested]
    · left
      simpa [Threads.setOwner, Threads.goto, hm] using howner
  · rename_i m' p hcode
    obtain rfl := Option.some.inj hstep
    by_cases hm : m = m'
    · subst hm
      simp [Threads.setOwner] at howner
    · left
      simpa [Threads.setOwner, Threads.goto, hm] using howner
  · rename_i m' p hcode
    obtain rfl := Option.some.inj hstep
    by_cases hm : m = m'
    · subst hm
      simp [Threads.setOwner] at howner
    · left
      simpa [Threads.setOwner, Threads.goto, hm] using howner
  · obtain rfl := Option.some.inj hstep
    exact Or.inl howner
  · obtain rfl := Option.some.inj hstep
    exact Or.inl howner

/-- A thread waits for the one that holds the mutex it requests, or for the only
one that can signal. -/
def WaitsFor (s : Threads T M A D) (signals : T → M → Prop) (t t' : T) : Prop :=
  (∃ m, s.requested t = some m ∧ s.owner m = some t') ∨
    ∃ m, s.sleeping t = some m ∧ ∀ t'', signals t'' m ↔ t'' = t'

/-- No thread requests a mutex that it holds, and there is no cycle. -/
def DeadlockFree (s : Threads T M A D) (signals : T → M → Prop) : Prop :=
  (∀ t m, s.requested t = some m → s.owner m ≠ some t) ∧
    ∀ t, ¬Relation.TransGen (s.WaitsFor signals) t t

/-- Along what a thread waits for a number decreases. -/
theorem no_cycle_of_rank {s : Threads T M A D} {signals : T → M → Prop} (rank : T → ℕ)
    (h : ∀ t t', s.WaitsFor signals t t' → rank t' < rank t) (t : T) :
    ¬Relation.TransGen (s.WaitsFor signals) t t := by
  intro hcycle
  have hlt : ∀ {t'}, Relation.TransGen (s.WaitsFor signals) t t' → rank t' < rank t := by
    intro t' hpath
    induction hpath with
    | single hedge => exact h _ _ hedge
    | tail _ hedge ih => exact Nat.lt_trans (h _ _ hedge) ih
  exact Nat.lt_irrefl _ (hlt hcycle)

end Threads

/-- The mutexes that a thread may hold, the last taken first; where it may wait,
with the mutexes that it holds meanwhile; and what it holds before and after an
act. -/
structure Discipline (T M A : Type*) where
  stack : T → List M → Prop
  waits : T → M → List M → Prop
  acts : T → List M → A → List M → Prop
  nodup : ∀ {t held}, stack t held → held.Nodup
  tail : ∀ {t m held}, stack t (m :: held) → stack t held

namespace Discipline

variable {T M A D : Type*} (d : Discipline T M A) {t : T} {held held' held'' : List M}
  {p q : List (Op M A)}

/-- Code of a function: it takes a thread from one stack of mutexes to another. -/
def Typed (t : T) : List M → List (Op M A) → List M → Prop
  | held, [], held' => held = held'
  | held, .lock m :: p, held' => d.stack t (m :: held) ∧ Typed t (m :: held) p held'
  | held, .unlock m :: p, held' => ∃ rest, held = m :: rest ∧ Typed t rest p held'
  | held, .wait m :: p, held' =>
      ∃ rest, held = m :: rest ∧ d.waits t m rest ∧ Typed t held p held'
  | held, .act a :: p, held' => ∃ next, d.acts t held a next ∧ Typed t next p held'
  | _, .locking _ :: _, _ | _, .waiting _ :: _, _ => False

/-- What a thread has still to do: it can be inside of a call. -/
def Runs (t : T) (held : List M) : List (Op M A) → Prop
  | .locking m :: p => d.stack t (m :: held) ∧ d.Typed t (m :: held) p []
  | .waiting m :: p => d.waits t m held ∧ d.stack t (m :: held) ∧ d.Typed t (m :: held) p []
  | p => d.Typed t held p []

variable {d}

theorem Typed.append (hp : d.Typed t held p held') (hq : d.Typed t held' q held'') :
    d.Typed t held (p ++ q) held'' := by
  induction p generalizing held with
  | nil =>
      obtain rfl : held = held' := hp
      exact hq
  | cons op p ih =>
      cases op with
      | lock m => exact ⟨hp.1, ih hp.2⟩
      | unlock m =>
          obtain ⟨rest, rfl, hrest⟩ := hp
          exact ⟨rest, rfl, ih hrest⟩
      | wait m =>
          obtain ⟨rest, rfl, hwaits, hrest⟩ := hp
          exact ⟨rest, rfl, hwaits, ih hrest⟩
      | act a =>
          obtain ⟨next, ha, hrest⟩ := hp
          exact ⟨next, ha, ih hrest⟩
      | locking m | waiting m => exact hp.elim

/-- A function does not start inside of a call. -/
theorem Typed.quiet (h : d.Typed t held p held') :
    Op.requested p = none ∧ Op.sleeping p = none := by
  cases p with
  | nil => exact ⟨rfl, rfl⟩
  | cons op p =>
      cases op with
      | locking m | waiting m => exact h.elim
      | _ => exact ⟨rfl, rfl⟩

theorem Typed.runs (h : d.Typed t held p []) : d.Runs t held p := by
  cases p with
  | nil => exact h
  | cons op p =>
      cases op with
      | locking m | waiting m => exact h.elim
      | _ => exact h

variable (d) in
/-- A thread holds what its operations ask for. -/
def Keeps (s : Threads T M A D) (t : T) : Prop :=
  ∃ held, d.stack t held ∧ d.Runs t held (s.code t) ∧ ∀ m, s.owner m = some t ↔ m ∈ held

variable (d) in
def Kept (s : Threads T M A D) : Prop := ∀ t, d.Keeps s t

theorem Kept.initial {s : Threads T M A D} (hcode : ∀ t, s.code t = [])
    (howner : ∀ m, s.owner m = none) (hstack : ∀ t, d.stack t []) : d.Kept s := by
  intro t
  refine ⟨[], hstack t, ?_, ?_⟩
  · rw [hcode]
    rfl
  · simp [howner]

theorem Runs.of_requested {m : M} (h : d.Runs t held p) (hm : Op.requested p = some m) :
    d.stack t (m :: held) := by
  unfold Op.requested at hm
  split at hm
  · obtain rfl := Option.some.inj hm
    exact h.1
  · simp at hm

theorem Runs.of_sleeping {m : M} (h : d.Runs t held p) (hm : Op.sleeping p = some m) :
    d.waits t m held := by
  unfold Op.sleeping at hm
  split at hm
  · obtain rfl := Option.some.inj hm
    exact h.1
  · simp at hm

theorem Kept.requested_ne {s : Threads T M A D} (h : d.Kept s) {m : M}
    (hrequested : s.requested t = some m) : s.owner m ≠ some t := by
  obtain ⟨held, -, hruns, howner⟩ := h t
  intro hself
  have hnodup := d.nodup (hruns.of_requested hrequested)
  exact (List.nodup_cons.mp hnodup).1 ((howner m).mp hself)

/-- What the holder of a mutex can be waiting for. -/
theorem Kept.holder {s : Threads T M A D} (h : d.Kept s) {m : M} (howner : s.owner m = some t) :
    ∃ held, m ∈ held ∧ d.stack t held ∧
      (∀ m', s.requested t = some m' → d.stack t (m' :: held)) ∧
      ∀ m', s.sleeping t = some m' → d.waits t m' held := by
  obtain ⟨held, hstack, hruns, hheld⟩ := h t
  exact ⟨held, (hheld m).mp howner, hstack, fun _ ↦ hruns.of_requested,
    fun _ ↦ hruns.of_sleeping⟩

theorem Kept.requester {s : Threads T M A D} (h : d.Kept s) {m : M}
    (hrequested : s.requested t = some m) : ∃ held, d.stack t (m :: held) := by
  obtain ⟨held, -, hruns, -⟩ := h t
  exact ⟨held, hruns.of_requested hrequested⟩

theorem Kept.sleeper {s : Threads T M A D} (h : d.Kept s) {m : M}
    (hsleeping : s.sleeping t = some m) : ∃ held, d.waits t m held := by
  obtain ⟨held, -, hruns, -⟩ := h t
  exact ⟨held, hruns.of_sleeping hsleeping⟩

/-- Another thread moves, and what it takes was free or its own. -/
theorem Keeps.other {s s' : Threads T M A D} (h : d.Keeps s t) (hcode : s'.code t = s.code t)
    (howner : ∀ m, s'.owner m = some t ↔ s.owner m = some t) : d.Keeps s' t := by
  obtain ⟨held, hstack, hruns, hheld⟩ := h
  refine ⟨held, hstack, hcode ▸ hruns, fun m ↦ ?_⟩
  rw [howner]
  exact hheld m

section Steps

variable [DecidableEq T] {acts : Acts M A D} {s s' : Threads T M A D}

theorem Kept.goto (h : d.Kept s) (ht : d.Runs t held p)
    (hstack : d.stack t held) (howner : ∀ m, s.owner m = some t ↔ m ∈ held) :
    d.Kept (s.goto t p) := by
  intro t'
  by_cases hne : t' = t
  · subst hne
    refine ⟨held, hstack, ?_, howner⟩
    simpa [Threads.goto] using ht
  · refine (h t').other ?_ fun _ ↦ Iff.rfl
    simp [Threads.goto, hne]

theorem Kept.release [DecidableEq M] (h : d.Kept s) {m : M} (hstack : d.stack t (m :: held))
    (ht : d.Runs t held p) (howner : ∀ m', s.owner m' = some t ↔ m' ∈ m :: held) :
    d.Kept ((s.goto t p).setOwner m none) := by
  have hself : s.owner m = some t := (howner m).mpr List.mem_cons_self
  intro t'
  by_cases hne : t' = t
  · subst hne
    refine ⟨held, d.tail hstack, ?_, fun m' ↦ ?_⟩
    · simpa [Threads.goto, Threads.setOwner] using ht
    · by_cases hm : m' = m
      · subst hm
        simpa [Threads.setOwner] using (List.nodup_cons.mp (d.nodup hstack)).1
      · simpa [Threads.setOwner, Threads.goto, hm] using howner m'
  · refine (h t').other ?_ fun m' ↦ ?_
    · simp [Threads.goto, Threads.setOwner, hne]
    · by_cases hm : m' = m
      · subst hm
        simp [Threads.setOwner, hself, Ne.symm hne]
      · simp [Threads.setOwner, Threads.goto, hm]

theorem Kept.acquire [DecidableEq M] (h : d.Kept s) {m : M} (hfree : s.owner m = none)
    (hstack : d.stack t (m :: held)) (ht : d.Runs t (m :: held) p)
    (howner : ∀ m', s.owner m' = some t ↔ m' ∈ held) :
    d.Kept ((s.goto t p).setOwner m (some t)) := by
  intro t'
  by_cases hne : t' = t
  · subst hne
    refine ⟨m :: held, hstack, ?_, fun m' ↦ ?_⟩
    · simpa [Threads.goto, Threads.setOwner] using ht
    · by_cases hm : m' = m
      · subst hm
        simp [Threads.setOwner]
      · simpa [Threads.setOwner, Threads.goto, hm] using howner m'
  · refine (h t').other ?_ fun m' ↦ ?_
    · simp [Threads.goto, Threads.setOwner, hne]
    · by_cases hm : m' = m
      · subst hm
        simp [Threads.setOwner, hfree, Ne.symm hne]
      · simp [Threads.setOwner, Threads.goto, hm]

/-- A thread keeps the discipline in every operation whose act does. -/
theorem Kept.exec [DecidableEq M] (h : d.Kept s)
    (hacts : ∀ a p, s.code t = .act a :: p → ∀ held next, d.acts t held a next →
      d.Typed t held (acts.expand a s.data) next)
    (hstep : s.exec acts t = some s') : d.Kept s' := by
  obtain ⟨held, hstack, htyped, howner⟩ := h t
  unfold Threads.exec at hstep
  split at hstep
  · simp at hstep
  · rename_i m p hcode
    obtain rfl := Option.some.inj hstep
    rw [hcode] at htyped
    exact h.goto htyped hstack howner
  · rename_i m p hcode
    rw [Option.ite_none_right_eq_some] at hstep
    obtain ⟨hfree, hstep⟩ := hstep
    obtain rfl := Option.some.inj hstep
    rw [hcode] at htyped
    exact h.acquire hfree htyped.1 htyped.2.runs howner
  · rename_i m p hcode
    obtain rfl := Option.some.inj hstep
    rw [hcode] at htyped
    obtain ⟨rest, rfl, hrest⟩ := htyped
    exact h.release hstack hrest.runs howner
  · rename_i m p hcode
    obtain rfl := Option.some.inj hstep
    rw [hcode] at htyped
    obtain ⟨rest, rfl, hwaits, hrest⟩ := htyped
    exact h.release hstack ⟨hwaits, hstack, hrest⟩ howner
  · rename_i m p hcode
    obtain rfl := Option.some.inj hstep
    rw [hcode] at htyped
    exact h.goto htyped.2 hstack howner
  · rename_i a p hcode
    obtain rfl := Option.some.inj hstep
    rw [hcode] at htyped
    obtain ⟨next, ha, hrest⟩ := htyped
    exact h.goto ((hacts a p hcode held next ha).append hrest).runs hstack howner

/-- How a step changes what the thread is blocked at: it goes on, it requests a
mutex, it falls asleep, or it wakes up. -/
theorem Kept.exec_blocked [DecidableEq M] (h : d.Kept s)
    (hacts : ∀ a p, s.code t = .act a :: p → ∀ held next, d.acts t held a next →
      d.Typed t held (acts.expand a s.data) next)
    (hstep : s.exec acts t = some s') :
    (s'.requested t = none ∧ s'.sleeping t = none) ∨
      (∃ m p, s.code t = .lock m :: p ∧ s'.owner = s.owner ∧ s'.requested t = some m ∧
        s'.sleeping t = none) ∨
      (∃ m p, s.code t = .wait m :: p ∧ s'.requested t = none ∧ s'.sleeping t = some m) ∨
      ∃ m, s.sleeping t = some m ∧ s'.owner = s.owner ∧ s'.requested t = some m ∧
        s'.sleeping t = none := by
  obtain ⟨held, -, hruns, -⟩ := h t
  simp only [Threads.requested, Threads.sleeping]
  unfold Threads.exec at hstep
  split at hstep
  · simp at hstep
  · rename_i m p hcode
    obtain rfl := Option.some.inj hstep
    refine Or.inr (Or.inl ⟨m, p, hcode, rfl, ?_, ?_⟩)
    · simp [Threads.goto, Op.requested]
    · simp [Threads.goto, Op.sleeping]
  · rename_i m p hcode
    rw [Option.ite_none_right_eq_some] at hstep
    obtain ⟨-, hstep⟩ := hstep
    obtain rfl := Option.some.inj hstep
    rw [hcode] at hruns
    left
    simpa [Threads.goto, Threads.setOwner] using hruns.2.quiet
  · rename_i m p hcode
    obtain rfl := Option.some.inj hstep
    rw [hcode] at hruns
    obtain ⟨rest, rfl, hrest⟩ := hruns
    left
    simpa [Threads.goto, Threads.setOwner] using hrest.quiet
  · rename_i m p hcode
    obtain rfl := Option.some.inj hstep
    refine Or.inr (Or.inr (Or.inl ⟨m, p, hcode, ?_, ?_⟩))
    · simp [Threads.goto, Threads.setOwner, Op.requested]
    · simp [Threads.goto, Threads.setOwner, Op.sleeping]
  · rename_i m p hcode
    obtain rfl := Option.some.inj hstep
    refine Or.inr (Or.inr (Or.inr ⟨m, ?_, rfl, ?_, ?_⟩))
    · simp [hcode, Op.sleeping]
    · simp [Threads.goto, Op.requested]
    · simp [Threads.goto, Op.sleeping]
  · rename_i a p hcode
    obtain rfl := Option.some.inj hstep
    rw [hcode] at hruns
    obtain ⟨next, ha, hrest⟩ := hruns
    left
    simpa [Threads.goto] using ((hacts a p hcode held next ha).append hrest).quiet

theorem Kept.call (h : d.Kept s) (hp : d.Typed t [] p []) (hstep : s.call t p = some s') :
    d.Kept s' := by
  unfold Threads.call at hstep
  rw [Option.ite_none_right_eq_some] at hstep
  obtain ⟨hcode, hstep⟩ := hstep
  obtain rfl := Option.some.inj hstep
  obtain ⟨held, hstack, htyped, howner⟩ := h t
  rw [hcode] at htyped
  obtain rfl : held = [] := htyped
  exact h.goto hp.runs hstack howner

end Steps

end Discipline

end Locks
