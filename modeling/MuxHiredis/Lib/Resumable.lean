import Mathlib.Data.List.Basic
import Mathlib.Tactic

/-!
# Resumable consumers

A consumer looks at the unread part of its input and either emits a value,
waits for more input, or fails for good.  It is resumable when what it does on
a longer input is decided by what it did on a shorter one.  For such a consumer
the way the input is cut into chunks cannot be observed.
-/

namespace Resumable

variable {σ α β : Type*}

/-- One call of a consumer in state `σ`: the state it leaves and, unless it
failed, the input it has not read. -/
inductive Outcome (σ α β : Type*) where
  | emit (out : β) (next : σ) (rest : List α)
  | wait (next : σ) (rest : List α)
  | fail (next : σ)

namespace Outcome

/-- The outcome of the same call had `ys` followed the input it was given. -/
def extend (step : σ → List α → Outcome σ α β) (ys : List α) :
    Outcome σ α β → Outcome σ α β
  | emit out next rest => emit out next (rest ++ ys)
  | wait next rest => step next (rest ++ ys)
  | fail next => fail next

end Outcome

/-- The laws of a resumable consumer whose states satisfy `inv`. -/
structure Lawful (inv : σ → Prop) (step : σ → List α → Outcome σ α β) : Prop where
  append : ∀ {s}, inv s → ∀ xs ys, step s (xs ++ ys) = (step s xs).extend step ys
  emit_lt : ∀ {s xs b s' rest}, step s xs = .emit b s' rest → rest.length < xs.length
  emit_inv : ∀ {s xs b s' rest}, inv s → step s xs = .emit b s' rest → inv s'
  wait_inv : ∀ {s xs s' rest}, inv s → step s xs = .wait s' rest → inv s'

/-- Where a consumer stands once it has nothing more to emit. -/
inductive Final (σ α : Type*) where
  | waiting (state : σ) (rest : List α)
  | failed (state : σ)

section Drain

variable (step : σ → List α → Outcome σ α β)

/-- Call the consumer until it waits or fails, `fuel` times at most. -/
def drainFor : ℕ → σ → List α → List β × Final σ α
  | 0, s, xs => ([], .waiting s xs)
  | fuel + 1, s, xs =>
      match step s xs with
      | .emit b s' rest => ((b :: (drainFor fuel s' rest).1), (drainFor fuel s' rest).2)
      | .wait s' rest => ([], .waiting s' rest)
      | .fail s' => ([], .failed s')

/-- Every emission reads something, so the length of the input bounds the
number of calls. -/
def drain (s : σ) (xs : List α) : List β × Final σ α :=
  drainFor step (xs.length + 1) s xs

/-- Append one more chunk to what was left unread, and drain again. -/
def feed : Final σ α → List α → List β × Final σ α
  | .waiting s rest, chunk => drain step s (rest ++ chunk)
  | .failed s, _ => ([], .failed s)

/-- Feed the chunks one by one, draining after each. -/
def feedAll : Final σ α → List (List α) → List β × Final σ α
  | e, [] => ([], e)
  | e, chunk :: chunks =>
      let first := feed step e chunk
      let later := feedAll first.2 chunks
      (first.1 ++ later.1, later.2)

end Drain

section Laws

variable {inv : σ → Prop} {step : σ → List α → Outcome σ α β}

theorem drainFor_eq (hstep : Lawful inv step) (fuel fuel' : ℕ) (s : σ) (xs : List α)
    (h : xs.length < fuel) (h' : xs.length < fuel') :
    drainFor step fuel s xs = drainFor step fuel' s xs := by
  induction fuel generalizing fuel' s xs with
  | zero => omega
  | succ fuel ih =>
      cases fuel' with
      | zero => omega
      | succ fuel' =>
          simp only [drainFor]
          cases hs : step s xs with
          | emit b s' rest =>
              have hlt := hstep.emit_lt hs
              simp only [ih fuel' s' rest (by omega) (by omega)]
          | wait s' rest => rfl
          | fail s' => rfl

theorem drain_eq (hstep : Lawful inv step) (s : σ) (xs : List α) :
    drain step s xs =
      match step s xs with
      | .emit b s' rest => ((b :: (drain step s' rest).1), (drain step s' rest).2)
      | .wait s' rest => ([], .waiting s' rest)
      | .fail s' => ([], .failed s') := by
  rw [drain, drainFor]
  cases hs : step s xs with
  | emit b s' rest =>
      have hlt := hstep.emit_lt hs
      simp only [drain, drainFor_eq hstep xs.length (rest.length + 1) s' rest (by omega) (by omega)]
  | wait s' rest => rfl
  | fail s' => rfl

/-- A consumer that waits keeps waiting until it is given more. -/
theorem step_wait_idem (hstep : Lawful inv step) {s s' : σ} {xs rest : List α}
    (hinv : inv s) (h : step s xs = .wait s' rest) : step s' rest = .wait s' rest := by
  have happ := hstep.append hinv xs []
  rw [List.append_nil, h] at happ
  simpa [Outcome.extend] using happ.symm

/-- Draining a longer input is draining the shorter one first. -/
theorem drain_append (hstep : Lawful inv step) {s : σ} (hinv : inv s) (xs ys : List α) :
    drain step s (xs ++ ys) =
      ((drain step s xs).1 ++ (feed step (drain step s xs).2 ys).1,
        (feed step (drain step s xs).2 ys).2) := by
  induction hn : xs.length using Nat.strong_induction_on generalizing s xs with
  | _ n ih =>
      rw [drain_eq hstep s xs]
      cases hs : step s xs with
      | emit b s' rest =>
          have hlt := hstep.emit_lt hs
          have hrest := ih rest.length (by omega) (hstep.emit_inv hinv hs) rest rfl
          rw [drain_eq hstep s (xs ++ ys), hstep.append hinv, hs]
          simp only [Outcome.extend, hrest, List.cons_append]
      | wait s' rest =>
          rw [drain_eq hstep s (xs ++ ys), hstep.append hinv, hs]
          simp only [Outcome.extend, feed, List.nil_append, Prod.mk.eta]
          rw [drain_eq hstep s' (rest ++ ys)]
      | fail s' =>
          rw [drain_eq hstep s (xs ++ ys), hstep.append hinv, hs]
          rfl

/-- A drain ends in a state that satisfies the invariant and waits. -/
theorem drain_waiting (hstep : Lawful inv step) {s s' : σ} {xs rest : List α} {bs : List β}
    (hinv : inv s) (h : drain step s xs = (bs, .waiting s' rest)) :
    inv s' ∧ step s' rest = .wait s' rest := by
  induction hn : xs.length using Nat.strong_induction_on generalizing s xs bs with
  | _ n ih =>
      rw [drain_eq hstep s xs] at h
      cases hs : step s xs with
      | emit b t tail =>
          have hlt := hstep.emit_lt hs
          rw [hs] at h
          obtain ⟨-, hfinal⟩ := Prod.mk.inj h
          exact ih tail.length (by omega) (hstep.emit_inv hinv hs)
            (Prod.ext rfl hfinal) rfl
      | wait t tail =>
          rw [hs] at h
          obtain ⟨-, hfinal⟩ := Prod.mk.inj h
          cases hfinal
          exact ⟨hstep.wait_inv hinv hs, step_wait_idem hstep hinv hs⟩
      | fail t => simp [hs] at h

theorem feedAll_failed (s : σ) (chunks : List (List α)) :
    feedAll step (.failed s) chunks = ([], .failed s) := by
  induction chunks with
  | nil => rfl
  | cons chunk chunks ih => simp only [feedAll, feed, ih, List.append_nil]

/-- The cuts cannot be seen: from a state that was already drained, feeding
chunk by chunk emits what feeding their concatenation emits, and ends in the
same place. -/
theorem feedAll_eq (hstep : Lawful inv step) {s : σ} {rest : List α} (hinv : inv s)
    (hidle : step s rest = .wait s rest) (chunks : List (List α)) :
    feedAll step (.waiting s rest) chunks =
      feed step (.waiting s rest) chunks.flatten := by
  induction chunks generalizing s rest with
  | nil =>
      simp only [feedAll, feed, List.flatten_nil, List.append_nil]
      rw [drain_eq hstep, hidle]
  | cons chunk chunks ih =>
      simp only [feedAll, feed, List.flatten_cons, ← List.append_assoc]
      rw [drain_append hstep hinv (rest ++ chunk) chunks.flatten]
      generalize hd : drain step s (rest ++ chunk) = d
      obtain ⟨bs, e⟩ := d
      cases e with
      | failed t => rw [feedAll_failed]; rfl
      | waiting t tail =>
          obtain ⟨ht, hwait⟩ := drain_waiting hstep hinv hd
          rw [ih ht hwait]

end Laws

/-! ## Consumers made of smaller steps

A consumer often works through several small steps before it has a value to
hand over.  The small step emits nothing itself; `finished` says when the
state holds a complete value and what remains once it is taken. -/

section Until

variable (item : σ → List α → Outcome σ α Unit) (finished : σ → Option (β × σ))

/-- Repeat the small step until a value is complete. -/
def untilFor : ℕ → σ → List α → Outcome σ α β
  | 0, s, xs => .wait s xs
  | fuel + 1, s, xs =>
      match item s xs with
      | .emit _ s' rest =>
          match finished s' with
          | some (b, s'') => .emit b s'' rest
          | none => untilFor fuel s' rest
      | .wait s' rest => .wait s' rest
      | .fail s' => .fail s'

def untilFinished (s : σ) (xs : List α) : Outcome σ α β :=
  untilFor item finished (xs.length + 1) s xs

end Until

section UntilLaws

variable {inv : σ → Prop} {item : σ → List α → Outcome σ α Unit}
  {finished : σ → Option (β × σ)}

variable (finished) in
theorem untilFor_eq (hitem : Lawful inv item) (fuel fuel' : ℕ) (s : σ) (xs : List α)
    (h : xs.length < fuel) (h' : xs.length < fuel') :
    untilFor item finished fuel s xs = untilFor item finished fuel' s xs := by
  induction fuel generalizing fuel' s xs with
  | zero => omega
  | succ fuel ih =>
      cases fuel' with
      | zero => omega
      | succ fuel' =>
          simp only [untilFor]
          cases hs : item s xs with
          | emit u s' rest =>
              have hlt := hitem.emit_lt hs
              simp only [ih fuel' s' rest (by omega) (by omega)]
          | wait s' rest => rfl
          | fail s' => rfl

/-- The loop, one small step at a time. -/
theorem untilFinished_eq (hitem : Lawful inv item) (s : σ) (xs : List α) :
    untilFinished item finished s xs =
      match item s xs with
      | .emit _ s' rest =>
          match finished s' with
          | some (b, s'') => .emit b s'' rest
          | none => untilFinished item finished s' rest
      | .wait s' rest => .wait s' rest
      | .fail s' => .fail s' := by
  rw [untilFinished, untilFor]
  cases hs : item s xs with
  | emit u s' rest =>
      have hlt := hitem.emit_lt hs
      simp only [untilFinished, untilFor_eq finished hitem xs.length (rest.length + 1) s'
        rest (by omega) (by omega)]
  | wait s' rest => rfl
  | fail s' => rfl

theorem untilFinished_append (hitem : Lawful inv item) {s : σ} (hinv : inv s)
    (xs ys : List α) :
    untilFinished item finished s (xs ++ ys) =
      (untilFinished item finished s xs).extend (untilFinished item finished) ys := by
  induction hn : xs.length using Nat.strong_induction_on generalizing s xs with
  | _ n ih =>
      rw [untilFinished_eq hitem s (xs ++ ys), untilFinished_eq hitem s xs, hitem.append hinv]
      cases hs : item s xs with
      | emit u s' rest =>
          have hlt := hitem.emit_lt hs
          simp only [Outcome.extend]
          cases hf : finished s' with
          | some p => rfl
          | none => exact ih rest.length (by omega) (hitem.emit_inv hinv hs) rest rfl
      | wait s' rest =>
          simp only [Outcome.extend]
          rw [untilFinished_eq hitem s' (rest ++ ys)]
      | fail s' => rfl

theorem untilFinished_emit_lt (hitem : Lawful inv item) {s s' : σ} {xs rest : List α} {b : β}
    (h : untilFinished item finished s xs = .emit b s' rest) : rest.length < xs.length := by
  induction hn : xs.length using Nat.strong_induction_on generalizing s xs with
  | _ n ih =>
      rw [untilFinished_eq hitem] at h
      cases hs : item s xs with
      | emit u t tail =>
          have hlt := hitem.emit_lt hs
          rw [hs] at h
          simp only at h
          cases hf : finished t with
          | some p =>
              rw [hf] at h
              cases h
              omega
          | none =>
              rw [hf] at h
              have htail := ih tail.length (by omega) h rfl
              omega
      | wait t tail => simp [hs] at h
      | fail t => simp [hs] at h

/-- Whatever one small step preserves, and taking a value restores, holds
again when the loop hands over or waits. -/
theorem untilFinished_inv (hitem : Lawful inv item)
    (hfinished : ∀ {s s' b}, inv s → finished s = some (b, s') → inv s')
    {s : σ} {xs : List α} (hinv : inv s) :
    (∀ b s' rest, untilFinished item finished s xs = .emit b s' rest → inv s') ∧
      ∀ s' rest, untilFinished item finished s xs = .wait s' rest → inv s' := by
  induction hn : xs.length using Nat.strong_induction_on generalizing s xs with
  | _ n ih =>
      rw [untilFinished_eq hitem]
      cases hs : item s xs with
      | emit u t tail =>
          have hlt := hitem.emit_lt hs
          have ht := hitem.emit_inv hinv hs
          simp only
          cases hf : finished t with
          | some p =>
              refine ⟨?_, by simp⟩
              rintro b s' rest h
              cases h
              exact hfinished ht hf
          | none => exact ih tail.length (by omega) ht rfl
      | wait t tail =>
          refine ⟨by simp, ?_⟩
          rintro s' rest h
          cases h
          exact hitem.wait_inv hinv hs
      | fail t => simp

/-- A loop of resumable small steps is resumable. -/
theorem Lawful.untilFinished (hitem : Lawful inv item)
    (hfinished : ∀ {s s' b}, inv s → finished s = some (b, s') → inv s') :
    Lawful inv (untilFinished item finished) where
  append hinv xs ys := untilFinished_append hitem hinv xs ys
  emit_lt h := untilFinished_emit_lt hitem h
  emit_inv hinv h := (untilFinished_inv hitem hfinished hinv).1 _ _ _ h
  wait_inv hinv h := (untilFinished_inv hitem hfinished hinv).2 _ _ h

/-- The small step takes `s` to `s'` in one call or more, with no complete
value in between, and leaves `rest` of the input `xs`. -/
inductive Runs (item : σ → List α → Outcome σ α Unit) (finished : σ → Option (β × σ)) :
    σ → List α → σ → List α → Prop
  | last {s s' : σ} {xs rest : List α} :
      item s xs = .emit () s' rest → Runs item finished s xs s' rest
  | more {s t s' : σ} {xs mid rest : List α} :
      item s xs = .emit () t mid → finished t = none →
      Runs item finished t mid s' rest → Runs item finished s xs s' rest

theorem Runs.trans {s t s' : σ} {xs mid rest : List α} (h : Runs item finished s xs t mid)
    (ht : finished t = none) (h' : Runs item finished t mid s' rest) :
    Runs item finished s xs s' rest := by
  induction h with
  | last hs => exact .more hs ht h'
  | more hs hf _ ih => exact .more hs hf (ih ht h')

/-- A run without a complete value takes nothing away from the loop. -/
theorem Runs.untilFinished_trans (hitem : Lawful inv item) {s t : σ} {xs mid : List α}
    (h : Runs item finished s xs t mid) (ht : finished t = none) :
    untilFinished item finished s xs = untilFinished item finished t mid := by
  induction h with
  | @last s t xs mid hs =>
      rw [Resumable.untilFinished_eq hitem s, hs]
      simp only [ht]
  | @more s _ _ xs _ _ hs hf _ ih =>
      rw [Resumable.untilFinished_eq hitem s, hs]
      simp only [hf]
      exact ih ht

/-- A run that ends in a complete value is what the loop does. -/
theorem Runs.untilFinished_eq (hitem : Lawful inv item) {s s' s'' : σ} {xs rest : List α} {b : β}
    (h : Runs item finished s xs s' rest) (hb : finished s' = some (b, s'')) :
    untilFinished item finished s xs = .emit b s'' rest := by
  induction h with
  | last hs => simp only [Resumable.untilFinished_eq hitem, hs, hb]
  | more hs hf _ ih =>
      rw [Resumable.untilFinished_eq hitem, hs]
      simp only [hf]
      exact ih hb

end UntilLaws

end Resumable
