import MuxHiredis.Async.Callbacks

/-!
# The ledger of a context

What a history says about the commands that were accepted, the replies that
were processed and the callbacks that were run, and how these are related while
callbacks are run in the order of their commands.
-/

namespace MuxHiredis

/-! ## Reading a history -/

/-- The callback of a run, its argument and the reply it was given. -/
abbrev Invocation := ℕ × ℕ × Option ReplyTree

def accepted (τ : List Event) : List RedisCallback :=
  τ.filterMap fun
    | .accept cb => some cb
    | _ => none

def processed (τ : List Event) : List ReplyTree :=
  τ.filterMap fun
    | .reply r => some r
    | _ => none

def invocations (τ : List Event) : List Invocation :=
  τ.filterMap fun
    | .run fn privdata reply => some (fn, privdata, reply)
    | _ => none

/-- The runs of the callbacks `cbs` with the replies `rs`, in order.  A `NULL`
callback is not run. -/
def answers (cbs : List RedisCallback) (rs : List (Option ReplyTree)) : List Invocation :=
  (cbs.zip rs).filterMap fun p ↦ p.1.fn.map fun fn ↦ (fn, p.1.privdata, p.2)

/-- What running a callback writes into the history. -/
def runEvents (cb : RedisCallback) (reply : Option ReplyTree) : List Event :=
  (cb.fn.map fun fn ↦ .run fn cb.privdata reply).toList

@[simp] theorem accepted_append (τ τ' : List Event) :
    accepted (τ ++ τ') = accepted τ ++ accepted τ' := List.filterMap_append

@[simp] theorem processed_append (τ τ' : List Event) :
    processed (τ ++ τ') = processed τ ++ processed τ' := List.filterMap_append

@[simp] theorem invocations_append (τ τ' : List Event) :
    invocations (τ ++ τ') = invocations τ ++ invocations τ' := List.filterMap_append

@[simp] theorem accepted_accepts (cbs : List RedisCallback) :
    accepted (cbs.map .accept) = cbs := by
  induction cbs with
  | nil => rfl
  | cons cb cbs ih => exact congrArg (cb :: ·) ih

@[simp] theorem processed_accepts (cbs : List RedisCallback) :
    processed (cbs.map .accept) = [] := by
  induction cbs with
  | nil => rfl
  | cons cb cbs ih => exact ih

@[simp] theorem invocations_accepts (cbs : List RedisCallback) :
    invocations (cbs.map .accept) = [] := by
  induction cbs with
  | nil => rfl
  | cons cb cbs ih => exact ih

@[simp] theorem accepted_runEvents (cb : RedisCallback) (reply : Option ReplyTree) :
    accepted (runEvents cb reply) = [] := by
  unfold runEvents
  cases cb.fn <;> rfl

@[simp] theorem processed_runEvents (cb : RedisCallback) (reply : Option ReplyTree) :
    processed (runEvents cb reply) = [] := by
  unfold runEvents
  cases cb.fn <;> rfl

theorem invocations_runEvents (cb : RedisCallback) (reply : Option ReplyTree) :
    invocations (runEvents cb reply) = answers [cb] [reply] := by
  unfold runEvents answers
  cases hfn : cb.fn <;> simp [invocations, hfn]

theorem answers_append {cbs cbs' : List RedisCallback} {rs rs' : List (Option ReplyTree)}
    (h : cbs.length = rs.length) :
    answers (cbs ++ cbs') (rs ++ rs') = answers cbs rs ++ answers cbs' rs' := by
  rw [answers, List.zip_append h, List.filterMap_append]
  rfl

/-- Commands that have no reply yet do not matter. -/
theorem answers_take (cbs : List RedisCallback) (rs : List (Option ReplyTree)) :
    answers cbs rs = answers (cbs.take rs.length) rs := by
  simp only [answers]
  congr 1
  conv_lhs => rw [← List.take_append_drop rs.length cbs]
  rcases Nat.le_total rs.length cbs.length with h | h
  · conv_lhs => rw [← List.append_nil rs]
    rw [List.zip_append (by simp [h])]
    simp
  · simp [List.drop_eq_nil_of_le h]

/-! ## The ledger -/

/-- The books of a context of which `k` callbacks were run with `NULL`: the
callbacks run are those of the first commands, and the others are pending. -/
structure Ledger (τ : List Event) (pending : List RedisCallback) (k : ℕ) : Prop where
  count : (processed τ).length + k ≤ (accepted τ).length
  pending_eq : pending = (accepted τ).drop ((processed τ).length + k)
  served : invocations τ =
    answers (accepted τ) ((processed τ).map some ++ List.replicate k none)

namespace Ledger

variable {τ : List Event} {pending : List RedisCallback} {cb : RedisCallback} {k : ℕ}

theorem nil : Ledger [] [] 0 := ⟨le_rfl, rfl, rfl⟩

theorem length (h : Ledger τ pending k) :
    (processed τ).length + k + pending.length = (accepted τ).length := by
  have hcount := h.count
  rw [h.pending_eq, List.length_drop]
  omega

theorem accept (h : Ledger τ pending k) (cbs : List RedisCallback) :
    Ledger (τ ++ cbs.map .accept) (pending ++ cbs) k := by
  have hlen : ((processed τ).map some ++ List.replicate k (none : Option ReplyTree)).length ≤
      (accepted τ).length := by
    simpa using h.count
  refine ⟨?_, ?_, ?_⟩
  · simp only [processed_append, processed_accepts, List.append_nil, accepted_append,
      accepted_accepts, List.length_append]
    have := h.count
    omega
  · simp only [processed_append, processed_accepts, List.append_nil, accepted_append,
      accepted_accepts]
    rw [List.drop_append_of_le_length h.count, h.pending_eq]
  · simp only [invocations_append, invocations_accepts, List.append_nil, processed_append,
      processed_accepts, accepted_append, accepted_accepts, h.served]
    rw [answers_take (accepted τ ++ cbs), List.take_append_of_le_length hlen, ← answers_take]

theorem note (h : Ledger τ pending k) {e : Event} (ha : accepted [e] = [])
    (hp : processed [e] = []) (hi : invocations [e] = []) : Ledger (τ ++ [e]) pending k := by
  refine ⟨?_, ?_, ?_⟩ <;>
    simp only [accepted_append, processed_append, invocations_append, ha, hp, hi,
      List.append_nil]
  · exact h.count
  · exact h.pending_eq
  · exact h.served

/-- The first pending callback is run with the answer `r`. -/
theorem run (h : Ledger τ (cb :: pending) k) (es : List Event) (r : Option ReplyTree) (k' : ℕ)
    (ha : accepted es = []) (hi : invocations es = [])
    (hlen : (processed es).length + k' = k + 1)
    (hanswers : (processed (τ ++ es)).map some ++ List.replicate k' none =
      ((processed τ).map some ++ List.replicate k none) ++ [r]) :
    Ledger (τ ++ es ++ runEvents cb r) pending k' := by
  have hsum := h.length
  rw [List.length_cons] at hsum
  have hdrop : (accepted τ).drop ((processed τ).length + k) = cb :: pending := h.pending_eq.symm
  have hsplit : accepted τ =
      (accepted τ).take ((processed τ).length + k) ++ [cb] ++ pending := by
    rw [List.append_assoc, List.singleton_append, ← hdrop, List.take_append_drop]
  have htake : (accepted τ).take ((processed τ).length + k + 1) =
      (accepted τ).take ((processed τ).length + k) ++ [cb] := by
    rw [List.take_add_one, ← List.head?_drop, hdrop]
    rfl
  have hproc : (processed (τ ++ es ++ runEvents cb r)).length + k' =
      (processed τ).length + k + 1 := by
    simp only [processed_append, processed_runEvents, List.append_nil, List.length_append]
    omega
  have hacc : accepted (τ ++ es ++ runEvents cb r) = accepted τ := by
    simp only [accepted_append, ha, accepted_runEvents, List.append_nil]
  refine ⟨?_, ?_, ?_⟩
  · rw [hproc, hacc]
    omega
  · rw [hproc, hacc, ← List.drop_drop, hdrop]
    rfl
  · have hlong : ((processed τ).map some ++ List.replicate k (none : Option ReplyTree)).length =
        (processed τ).length + k := by simp
    have hproc' : processed (τ ++ es ++ runEvents cb r) = processed (τ ++ es) := by simp
    rw [hacc, hproc', hanswers, invocations_append, invocations_append, hi, List.append_nil,
      h.served, invocations_runEvents]
    rw [answers_take (accepted τ) (_ ++ [r]), List.length_append, hlong, List.length_singleton,
      htake, answers_append (by simp; omega), answers_take (accepted τ), hlong]

/-- A reply answers the first pending callback. -/
theorem serve (h : Ledger τ (cb :: pending) 0) (r : ReplyTree) :
    Ledger (τ ++ [.reply r] ++ runEvents cb (some r)) pending 0 :=
  h.run [.reply r] (some r) 0 rfl rfl rfl (by simp [processed])

/-- During teardown the first pending callback is run without a reply. -/
theorem drain (h : Ledger τ (cb :: pending) k) :
    Ledger (τ ++ runEvents cb none) pending (k + 1) := by
  have hrun := h.run [] none (k + 1) rfl rfl (by simp [processed]) (by simp [List.replicate_succ'])
  rwa [List.append_nil] at hrun

/-- All pending callbacks are run without a reply. -/
theorem drainAll (h : Ledger τ pending k) :
    Ledger (τ ++ pending.flatMap (runEvents · none)) [] (k + pending.length) := by
  induction pending generalizing τ k with
  | nil => simpa using h
  | cons cb pending ih =>
      have hrest := ih h.drain
      rwa [List.append_assoc, ← List.flatMap_cons (f := (runEvents · none)), Nat.add_assoc,
        Nat.add_comm 1, ← List.length_cons (a := cb)] at hrest

end Ledger

end MuxHiredis
