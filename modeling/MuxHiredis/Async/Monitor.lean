import MuxHiredis.Async.Batching
import MuxHiredis.Async.Command
import MuxHiredis.Async.ExactlyOnce
import MuxHiredis.Lib.Relay

/-!
# MONITOR

The callback of MONITOR has to run for every message.  What makes it stay is that
`redisProcessCallbacks` puts the callback it used last back into the list of
pending ones at the end of each read.  Here is when this is the callback of
MONITOR.
-/

namespace MuxHiredis

open Logged

def ReplyTree.isError : ReplyTree → Bool
  | .error _ => true
  | _ => false

/-- A run cannot be told from one of `m`: they are the same, or both `NULL`. -/
def RedisCallback.Like (m cb : RedisCallback) : Prop := cb = m ∨ cb.fn = none ∧ m.fn = none

/-! ## Callbacks that cannot be told apart -/

theorem answers_singleton (cb : RedisCallback) (r : Option ReplyTree) :
    answers [cb] [r] = (cb.fn.map fun fn ↦ (fn, cb.privdata, r)).toList := by
  cases hfn : cb.fn <;> simp [answers, hfn]

theorem answers_cons (cb : RedisCallback) (cbs : List RedisCallback) (r : Option ReplyTree)
    (rs : List (Option ReplyTree)) :
    answers (cb :: cbs) (r :: rs) = answers [cb] [r] ++ answers cbs rs := by
  have hone : [cb].length = [r].length := rfl
  exact answers_append hone

theorem length_answers_le (cbs : List RedisCallback) (rs : List (Option ReplyTree)) :
    (answers cbs rs).length ≤ cbs.length := by
  refine (List.length_filterMap_le _ _).trans ?_
  rw [List.length_zip]
  omega

theorem length_answers_replicate {m : RedisCallback} (hm : m.fn ≠ none)
    (rs : List (Option ReplyTree)) :
    (answers (List.replicate rs.length m) rs).length = rs.length := by
  obtain ⟨fn, hfn⟩ := Option.ne_none_iff_exists'.mp hm
  induction rs with
  | nil => rfl
  | cons r rs ih =>
      rw [List.length_cons, List.replicate_succ, answers_cons, List.length_append, ih,
        answers_singleton, hfn]
      simp [Nat.add_comm]

/-- Runs that look like runs of `m` are runs of callbacks that do. -/
theorem answers_eq_replicate_iff {m : RedisCallback} {cbs : List RedisCallback}
    {rs : List (Option ReplyTree)} (h : cbs.length = rs.length) :
    answers cbs rs = answers (List.replicate rs.length m) rs ↔ ∀ cb ∈ cbs, m.Like cb := by
  induction cbs generalizing rs with
  | nil =>
      obtain rfl : rs = [] := List.length_eq_zero_iff.mp h.symm
      simp
  | cons cb cbs ih =>
      obtain ⟨r, rs, rfl⟩ := List.exists_cons_of_length_eq_add_one h.symm
      have hlen : cbs.length = rs.length := by simpa using h
      rw [List.length_cons, List.replicate_succ, answers_cons, answers_cons m,
        List.forall_mem_cons, ← ih hlen, answers_singleton, answers_singleton]
      constructor
      · intro heq
        cases hcb : cb.fn with
        | none =>
            cases hm : m.fn with
            | none =>
                rw [hcb, hm] at heq
                exact ⟨Or.inr ⟨hcb, hm⟩, heq⟩
            | some fn =>
                have hcount := congrArg List.length heq
                have hle := length_answers_le cbs rs
                have hall := length_answers_replicate (m := m) (by simp [hm]) rs
                rw [hcb, hm, List.length_append, List.length_append, hall] at hcount
                simp only [Option.map_none, Option.toList_none, List.length_nil, Option.map_some,
                  Option.toList_some, List.length_singleton] at hcount
                omega
        | some fn =>
            cases hm : m.fn with
            | none =>
                have hnone : ∀ rs : List (Option ReplyTree),
                    answers (List.replicate rs.length m) rs = [] := by
                  intro rs
                  rw [answers, List.filterMap_eq_nil_iff]
                  intro p hp
                  obtain ⟨cb', r'⟩ := p
                  have hmem := (List.of_mem_zip hp).1
                  rw [List.eq_of_mem_replicate hmem, hm]
                  rfl
                rw [hcb, hm, hnone] at heq
                simp at heq
            | some fn' =>
                rw [hcb, hm] at heq
                simp only [Option.map_some, Option.toList_some, List.singleton_append,
                  List.cons.injEq, Prod.mk.injEq] at heq
                refine ⟨Or.inl ?_, heq.2⟩
                cases cb
                cases m
                simp_all
      · rintro ⟨rfl | ⟨hcb, hm⟩, heq⟩
        · rw [heq]
        · rw [heq, hcb, hm]
          rfl

/-- The first callbacks are as they should be; the others must look like `m`. -/
theorem answers_eq_iff {m : RedisCallback} {first taken : List RedisCallback}
    {rs : List (Option ReplyTree)} (hlen : taken.length = rs.length)
    (hfront : taken.take first.length = first.take rs.length) {n : ℕ} (hn : rs.length ≤ n) :
    answers taken rs = answers (first ++ List.replicate n m) rs ↔
      ∀ cb ∈ taken.drop first.length, m.Like cb := by
  have htaken : taken = first.take rs.length ++ taken.drop first.length := by
    rw [← hfront, List.take_append_drop]
  have hwant : (first ++ List.replicate n m).take rs.length =
      first.take rs.length ++ List.replicate (rs.length - first.length) m := by
    rw [List.take_append, List.take_replicate, Nat.min_eq_left (by omega)]
  have hk : (first.take rs.length).length = (rs.take first.length).length := by
    simp only [List.length_take]
    omega
  have hsplit : ∀ tail, answers (first.take rs.length ++ tail) rs =
      answers (first.take rs.length) (rs.take first.length) ++
        answers tail (rs.drop first.length) := by
    intro tail
    rw [← answers_append hk, List.take_append_drop]
  rw [answers_take (first ++ _), hwant, htaken, hsplit, hsplit, List.append_cancel_left_eq,
    ← htaken, ← List.length_drop]
  exact answers_eq_replicate_iff (by rw [List.length_drop, List.length_drop, hlen])

namespace AsyncContext

/-! ## Reading while monitoring -/

/-- MONITOR was issued on the context, and nothing else is going on. -/
structure Monitoring (ac : AsyncContext) : Prop where
  monitoring : ac.flags.monitoring = true
  subscribed : ac.flags.subscribed = false
  closing : ac.flags.closing = false
  idle : ac.flags.inCallback = false
  cErr : ac.cErr = none
  live : ac.freed = false

/-- The callbacks that are run from now on call nothing. -/
def Silent (script : ℕ → List ApiCall) (ac : AsyncContext) : Prop :=
  ∀ n, ac.trace.countP Event.isRun ≤ n → script n = []

section Script

variable {script : ℕ → List ApiCall}

theorem runCallback_silent {ac : AsyncContext} (hidle : ac.flags.inCallback = false)
    (hsilent : Silent script ac) (cb : RedisCallback) (reply : Option ReplyTree) :
    ac.runCallback script cb reply =
      some { ac with trace := ac.trace ++ runEvents cb reply } := by
  unfold runCallback
  cases hfn : cb.fn with
  | none => simp [runEvents, hfn]
  | some fn =>
      obtain ⟨⟨connected, disconnecting, freeing, inCallback, subscribed, monitoring⟩, cErr, err,
        obuf, onConnect, onDisconnect, replies, invalid, channels, patterns, freed, trace⟩ := ac
      obtain rfl : inCallback = false := hidle
      simp [hsilent _ le_rfl, record, runEvents, hfn]

/-- From `ac` to `ac'` the replies were taken by these callbacks. -/
structure Served (script : ℕ → List ApiCall) (ac : AsyncContext) (replies : List ReplyTree)
    (taken : List RedisCallback) (ac' : AsyncContext) : Prop where
  monitoring : ac'.Monitoring
  silent : Silent script ac'
  processed : processed ac'.trace = processed ac.trace ++ replies
  invocations : invocations ac'.trace = invocations ac.trace ++ answers taken (replies.map some)

theorem Served.refl {ac : AsyncContext} (h : ac.Monitoring) (hsilent : Silent script ac) :
    Served script ac [] [] ac :=
  ⟨h, hsilent, by simp, by simp [answers]⟩

theorem Served.trans {ac₁ ac₂ ac₃ : AsyncContext} {rs rs' : List ReplyTree}
    {cbs cbs' : List RedisCallback} (h : Served script ac₁ rs cbs ac₂)
    (h' : Served script ac₂ rs' cbs' ac₃) (hlen : cbs.length = rs.length) :
    Served script ac₁ (rs ++ rs') (cbs ++ cbs') ac₃ := by
  refine ⟨h'.monitoring, h'.silent, ?_, ?_⟩
  · rw [h'.processed, h.processed, List.append_assoc]
  · rw [h'.invocations, h.invocations, List.map_append, answers_append (by simpa using hlen),
      List.append_assoc]

/-- A reply that the callback `cb` gets leaves the context as it was, but for the
history and the pending callbacks. -/
theorem Monitoring.served {ac : AsyncContext} (h : ac.Monitoring) (hsilent : Silent script ac)
    (cb : RedisCallback) (reply : ReplyTree) (queue : List RedisCallback) :
    Served script ac [reply] [cb] { ac with
      replies := queue, trace := ac.trace ++ .reply reply :: runEvents cb (some reply) } := by
  refine ⟨⟨h.1, h.2, h.3, h.4, h.5, h.6⟩, fun n hn ↦ hsilent n (le_trans ?_ hn), ?_, ?_⟩
  · simp
  · rw [← List.singleton_append, processed_append, processed_append, processed_runEvents,
      List.append_nil]
    rfl
  · rw [← List.singleton_append, invocations_append, invocations_append, invocations_runEvents]
    rfl

theorem processReply_silent {ac : AsyncContext} (h : ac.Monitoring) (hsilent : Silent script ac)
    {held cb : RedisCallback} {queue : List RedisCallback} {reply : ReplyTree}
    (hpick : (ac.record (.reply reply)).pickCallback held reply =
      some (.run cb { ac.record (.reply reply) with replies := queue })) :
    ac.processReply script held reply = some (.next cb { ac with
      replies := queue, trace := ac.trace ++ .reply reply :: runEvents cb (some reply) }) := by
  have hfreeing : ac.flags.freeing = false := (Bool.or_eq_false_iff.mp h.closing).2
  simp only [processReply, hpick]
  by_cases hfn : cb.fn = none
  · simp [hfn, runEvents, record]
  · have hrecord : Silent script { ac.record (.reply reply) with replies := queue } :=
      fun n hn ↦ hsilent n (le_trans (by simp [record]) hn)
    have hidle : ({ ac.record (.reply reply) with
        replies := queue } : AsyncContext).flags.inCallback = false := h.idle
    have hrun := runCallback_silent hidle hrecord cb (some reply)
    rw [if_neg hfn, hrun]
    simp [record, hfreeing]

theorem processReply_waiting {ac : AsyncContext} (h : ac.Monitoring)
    (hsilent : Silent script ac) {cb : RedisCallback} {queue : List RedisCallback}
    (hqueue : ac.replies = cb :: queue) (held : RedisCallback) (reply : ReplyTree) :
    ac.processReply script held reply = some (.next cb { ac with
      replies := queue, trace := ac.trace ++ .reply reply :: runEvents cb (some reply) }) :=
  processReply_silent h hsilent (by simp [pickCallback, shiftReplies, record, hqueue])

theorem processReply_held {ac : AsyncContext} (h : ac.Monitoring) (hsilent : Silent script ac)
    (hqueue : ac.replies = []) {reply : ReplyTree} (hreply : reply.isError = false)
    (held : RedisCallback) :
    ac.processReply script held reply = some (.next held { ac with
      replies := [], trace := ac.trace ++ .reply reply :: runEvents held (some reply) }) := by
  refine processReply_silent h hsilent ?_
  cases reply <;>
    simp_all [pickCallback, shiftReplies, record, h.subscribed, h.monitoring, ReplyTree.isError]

/-- An error that no callback waits for ends the connection. -/
theorem processReply_error {ac : AsyncContext} (hqueue : ac.replies = []) {reply : ReplyTree}
    (hreply : reply.isError = true) {held : RedisCallback} {p : Processed}
    (hp : ac.processReply script held reply = some p) :
    ∃ ac', p = .done ac' ∧ ac'.freed = true := by
  cases reply with
  | error line =>
      simp only [processReply, pickCallback, shiftReplies, record, hqueue] at hp
      obtain ⟨ac', hac', rfl⟩ := Option.map_eq_some_iff.mp hp
      exact ⟨ac', rfl, asyncDisconnect_freed hac'⟩
  | _ => simp [ReplyTree.isError] at hreply

/-- The loop hands out the pending callbacks as a relay does. -/
theorem processLoop_round {ac : AsyncContext} (h : ac.Monitoring) (hsilent : Silent script ac)
    {held last : RedisCallback} {replies : List ReplyTree}
    {taken queue : List RedisCallback}
    (hround : Relay.round ReplyTree.isError held ac.replies replies =
      (taken, some (last, queue))) :
    ∃ ac', processLoop script replies held ac = some (.next last ac') ∧ ac'.replies = queue ∧
      Served script ac replies taken ac' := by
  induction replies generalizing ac held taken with
  | nil =>
      cases hround
      exact ⟨ac, rfl, rfl, .refl h hsilent⟩
  | cons reply replies ih =>
      -- What remains is the same once the callback `cb` got the first reply.
      have hrest : ∀ cb rest taken', taken = cb :: taken' →
          Relay.round ReplyTree.isError cb rest replies = (taken', some (last, queue)) →
          ac.processReply script held reply = some (.next cb { ac with
            replies := rest
            trace := ac.trace ++ .reply reply :: runEvents cb (some reply) }) →
          ∃ ac', processLoop script (reply :: replies) held ac = some (.next last ac') ∧
            ac'.replies = queue ∧ Served script ac (reply :: replies) taken ac' := by
        rintro cb rest taken' rfl hr hturn
        have hserved := h.served hsilent cb reply rest
        obtain ⟨ac', hloop, hq, hs⟩ := ih hserved.monitoring hserved.silent hr
        refine ⟨ac', ?_, hq, hserved.trans hs rfl⟩
        rw [processLoop, hturn, Option.bind_some]
        exact hloop
      cases hq : ac.replies with
      | nil =>
          rw [hq] at hround
          cases hreply : reply.isError with
          | true => simp [Relay.round, hreply] at hround
          | false =>
              simp only [Relay.round, hreply, Bool.false_eq_true, if_false, Prod.mk.injEq]
                at hround
              exact hrest held [] _ hround.1.symm (Prod.ext rfl hround.2)
                (processReply_held h hsilent hq hreply held)
      | cons cb rest =>
          rw [hq] at hround
          simp only [Relay.round, Prod.mk.injEq] at hround
          exact hrest cb rest _ hround.1.symm (Prod.ext rfl hround.2)
            (processReply_waiting h hsilent hq held reply)

theorem processLoop_ends {ac : AsyncContext} (h : ac.Monitoring) (hsilent : Silent script ac)
    {held : RedisCallback} {replies : List ReplyTree}
    (hround : (Relay.round ReplyTree.isError held ac.replies replies).2 = none)
    {p : Processed} (hp : processLoop script replies held ac = some p) :
    ∃ ac', p = .done ac' ∧ ac'.freed = true := by
  induction replies generalizing ac held with
  | nil => simp [Relay.round] at hround
  | cons reply replies ih =>
      cases hq : ac.replies with
      | nil =>
          rw [hq] at hround
          cases hreply : reply.isError with
          | true =>
              obtain ⟨q, hturn, hrest⟩ := Option.bind_eq_some_iff.mp hp
              obtain ⟨ac', rfl, hfreed⟩ := processReply_error hq hreply hturn
              exact ⟨ac', (Option.some.inj hrest).symm, hfreed⟩
          | false =>
              have hserved := h.served hsilent held reply []
              simp only [Relay.round, hreply, Bool.false_eq_true, if_false] at hround
              rw [processLoop, processReply_held h hsilent hq hreply, Option.bind_some] at hp
              exact ih hserved.monitoring hserved.silent hround hp
      | cons cb rest =>
          rw [hq] at hround
          have hserved := h.served hsilent cb reply rest
          rw [processLoop, processReply_waiting h hsilent hq, Option.bind_some] at hp
          exact ih hserved.monitoring hserved.silent hround hp

/-! ## From one read to the next -/

/-- A turn of the event loop, or what is left of one, in which `replies` are taken
while the record is `held` at first. -/
def Turn (script : ℕ → List ApiCall) (held : RedisCallback) (replies : List ReplyTree)
    (ac : AsyncContext) (r : Option AsyncContext) : Prop :=
  match Relay.round ReplyTree.isError held ac.replies replies with
  | (taken, some (last, queue)) =>
      ∃ ac', r = some ac' ∧ ac'.replies = queue ++ [last] ∧ Served script ac replies taken ac'
  | (_, none) => ∀ ac', r = some ac' → ac'.freed = true

theorem endOfReplies_monitoring {ac : AsyncContext} (h : ac.Monitoring) (cb : RedisCallback) :
    ac.endOfReplies script none cb = some { ac with replies := ac.replies ++ [cb] } := by
  have hdisconnecting : ac.flags.disconnecting = false := (Bool.or_eq_false_iff.mp h.closing).1
  simp [endOfReplies, hdisconnecting, h.monitoring]

theorem processReplies_turn {ac : AsyncContext} (h : ac.Monitoring)
    (hsilent : Silent script ac) (held : RedisCallback) (replies : List ReplyTree) :
    Turn script held replies ac (ac.processReplies script replies none held) := by
  rw [Turn, processReplies_eq]
  split
  · rename_i hround
    obtain ⟨ac', hloop, hq, hs⟩ := processLoop_round h hsilent hround
    refine ⟨{ ac' with replies := ac'.replies ++ [_] }, ?_, by rw [hq], ?_⟩
    · rw [hloop, Option.bind_some]
      exact endOfReplies_monitoring hs.monitoring _
    · obtain ⟨⟨h1, h2, h3, h4, h5, h6⟩, hsil, hproc, hinv⟩ := hs
      exact ⟨⟨h1, h2, h3, h4, h5, h6⟩, hsil, hproc, hinv⟩
  · rename_i hround
    intro ac' hac'
    obtain ⟨p, hp, hend⟩ := Option.bind_eq_some_iff.mp hac'
    obtain ⟨ac₁, rfl, hfreed⟩ := processLoop_ends h hsilent (congrArg Prod.snd hround) hp
    exact Option.some.inj hend ▸ hfreed

/-- An event of the socket: replies are made of what was read, or bytes are
written. -/
inductive Traffic where
  | readable (replies : List ReplyTree)
  | writable (written : ℕ)

/-- The replies of a read. -/
def Traffic.round : Traffic → Option (List ReplyTree)
  | .readable replies => some replies
  | .writable _ => none

/-- Handle an event of the socket, as long as the context is there. -/
def carry (script : ℕ → List ApiCall) (ac : AsyncContext) (event : Traffic) :
    Option AsyncContext :=
  if ac.freed then some ac
  else
    match event with
    | .readable replies => ac.redisAsyncHandleRead script .connected [] (.ok (replies, none))
    | .writable written => ac.redisAsyncHandleWrite script .connected [] (.ok written)

theorem foldlM_carry_freed {ac : AsyncContext} (h : ac.freed = true) (events : List Traffic) :
    events.foldlM (carry script) ac = some ac := by
  induction events with
  | nil => rfl
  | cons event events ih =>
      have hstays : carry script ac event = some ac := by simp [carry, h]
      rw [List.foldlM_cons, hstays]
      exact ih

/-- The connect callback is told first when the connection was not there yet. -/
theorem whenConnected_monitoring {ac : AsyncContext} (h : ac.Monitoring)
    (hsilent : Silent script ac) (handle : AsyncContext → Option AsyncContext) :
    ∃ ac', ac.whenConnected script .connected [] handle = handle ac' ∧
      ac'.replies = ac.replies ∧ Served script ac [] [] ac' := by
  by_cases hconnected : ac.flags.connected = true
  · exact ⟨ac, by rw [whenConnected, if_pos hconnected], rfl, .refl h hsilent⟩
  · have hflags : ({ ac with flags := { ac.flags with connected := true } } :
        AsyncContext).Monitoring := ⟨h.1, h.2, h.3, h.4, h.5, h.6⟩
    by_cases hon : ac.onConnect = true
    · refine ⟨{ ac with flags := { ac.flags with connected := true } }.record (.onConnect .ok),
        ?_, rfl, ⟨h.1, h.2, h.3, h.4, h.5, h.6⟩, fun n hn ↦ hsilent n (le_trans ?_ hn), ?_, ?_⟩
      · simp [whenConnected, hconnected, asyncHandleConnect, notifyConnect, hon, record]
      · simp [record]
      · simp [record, MuxHiredis.processed]
      · simp [record, MuxHiredis.invocations, answers]
    · refine ⟨{ ac with flags := { ac.flags with connected := true } }, ?_, rfl, hflags, hsilent,
        by simp, by simp [answers]⟩
      simp [whenConnected, hconnected, asyncHandleConnect, notifyConnect, hon]

theorem Turn.congr {ac ac₁ : AsyncContext} {held : RedisCallback} {replies : List ReplyTree}
    {r : Option AsyncContext} (hq : ac₁.replies = ac.replies) (hs : Served script ac [] [] ac₁)
    (h : Turn script held replies ac₁ r) : Turn script held replies ac r := by
  rw [Turn, hq] at h
  rw [Turn]
  split at h
  · obtain ⟨ac', hr, hq', hs'⟩ := h
    exact ⟨ac', hr, hq', hs.trans hs' rfl⟩
  · exact h

theorem carry_readable {ac : AsyncContext} (h : ac.Monitoring) (hsilent : Silent script ac)
    (replies : List ReplyTree) :
    Turn script .null replies ac (carry script ac (.readable replies)) := by
  obtain ⟨ac', hread, hq, hs⟩ := whenConnected_monitoring h hsilent
    (readConnected script (.ok (replies, none)))
  have hcarry : carry script ac (.readable replies) =
      ac'.processReplies script replies none .null := by
    have hcErr := hs.monitoring.cErr
    simp only [carry, h.live, Bool.false_eq_true, if_false, redisAsyncHandleRead, hread,
      readConnected, hcErr, ne_eq, not_true_eq_false, redisProcessCallbacks]
  rw [hcarry]
  exact .congr hq hs (processReplies_turn hs.monitoring hs.silent .null replies)

theorem carry_writable {ac : AsyncContext} (h : ac.Monitoring) (hsilent : Silent script ac)
    (written : ℕ) :
    ∃ ac', carry script ac (.writable written) = some ac' ∧ ac'.replies = ac.replies ∧
      Served script ac [] [] ac' := by
  obtain ⟨ac', hwrite, hq, hs⟩ := whenConnected_monitoring h hsilent
    (writeConnected script (.ok written))
  refine ⟨{ ac' with obuf := ac'.obuf.drop written }, ?_, hq, ?_⟩
  · have hcErr := hs.monitoring.cErr
    simp only [carry, h.live, Bool.false_eq_true, if_false, redisAsyncHandleWrite, hwrite,
      writeConnected, hcErr, ne_eq, not_true_eq_false]
  · obtain ⟨⟨h1, h2, h3, h4, h5, h6⟩, hsil, hproc, hinv⟩ := hs
    exact ⟨⟨h1, h2, h3, h4, h5, h6⟩, hsil, hproc, hinv⟩

/-- A run that the relay `p` tells the outcome of. -/
structure Relayed (script : ℕ → List ApiCall) (ac : AsyncContext) (replies : List ReplyTree)
    (p : List RedisCallback × Bool) (r : Option AsyncContext) : Prop where
  served : p.2 = true → ∃ ac', r = some ac' ∧ Served script ac replies p.1 ac'
  ended : p.2 = false → ∀ ac', r = some ac' → ac'.freed = true

/-- A turn, and then the events `events` that go as the relay does. -/
theorem Turn.relayed {ac : AsyncContext} {held : RedisCallback} {replies : List ReplyTree}
    {r : Option AsyncContext} {events : List Traffic} (h : Turn script held replies ac r)
    {ts : List (List ReplyTree)}
    (hevents : ∀ ac' : AsyncContext, ac'.Monitoring → Silent script ac' →
      Relayed script ac' ts.flatten
        (Relay.rounds ReplyTree.isError .null .null ac'.replies ts)
        (events.foldlM (carry script) ac')) :
    Relayed script ac (replies :: ts).flatten
      (Relay.rounds ReplyTree.isError .null held ac.replies (replies :: ts))
      (r.bind fun ac' ↦ events.foldlM (carry script) ac') := by
  rw [Turn] at h
  rw [Relay.rounds, List.flatten_cons]
  split at h
  · rename_i taken last queue hround
    rw [hround]
    obtain ⟨ac', rfl, hq, hs⟩ := h
    have hrest := hevents ac' hs.monitoring hs.silent
    rw [hq] at hrest
    refine ⟨fun hgoes ↦ ?_, hrest.ended⟩
    obtain ⟨ac'', hrun, hs'⟩ := hrest.served hgoes
    exact ⟨ac'', hrun, hs.trans hs' (Relay.length_round hround)⟩
  · rename_i taken hround
    rw [hround]
    refine ⟨by simp, fun _ ac'' hac'' ↦ ?_⟩
    obtain ⟨ac', hac', hrun⟩ := Option.bind_eq_some_iff.mp hac''
    have hfreed := h ac' hac'
    rw [foldlM_carry_freed hfreed] at hrun
    exact Option.some.inj hrun ▸ hfreed

theorem foldlM_carry_relayed {ac : AsyncContext} (h : ac.Monitoring)
    (hsilent : Silent script ac) (events : List Traffic) :
    Relayed script ac (events.filterMap Traffic.round).flatten
      (Relay.rounds ReplyTree.isError .null .null ac.replies (events.filterMap Traffic.round))
      (events.foldlM (carry script) ac) := by
  induction events generalizing ac with
  | nil => exact ⟨fun _ ↦ ⟨ac, rfl, .refl h hsilent⟩, by simp [Relay.rounds]⟩
  | cons event events ih =>
      cases event with
      | readable replies =>
          exact (carry_readable h hsilent replies).relayed fun ac' h' hsilent' ↦ ih h' hsilent'
      | writable written =>
          obtain ⟨ac', hwrite, hq, hs⟩ := carry_writable h hsilent written
          have hrest := ih hs.monitoring hs.silent
          rw [hq] at hrest
          rw [List.foldlM_cons, hwrite]
          refine ⟨fun hgoes ↦ ?_, hrest.ended⟩
          obtain ⟨ac'', hrun, hs'⟩ := hrest.served hgoes
          exact ⟨ac'', hrun, hs.trans hs' rfl⟩

/-! ## Issuing MONITOR -/

/-- MONITOR was accepted, the last command, and has no reply yet. -/
structure Awaiting (m : RedisCallback) (ac : AsyncContext) : Prop extends Monitoring ac where
  books : Ledger ac.trace ac.replies 0
  last : ∃ pending, ac.replies = pending ++ [m]

/-- The context that MONITOR was accepted on. -/
def monitored (ac : AsyncContext) (m : RedisCallback) (cmd : List UInt8) : AsyncContext :=
  { ac with
    flags := { ac.flags with monitoring := true }
    replies := ac.replies ++ [m]
    obuf := ac.obuf ++ cmd
    trace := ac.trace ++ [.enterMode] ++ [m].map .accept }

theorem asyncCommand_monitor {ac : AsyncContext} {cmd : List UInt8}
    (hkind : commandKind cmd = some .monitor) (hopen : ac.flags.closing = false)
    (m : RedisCallback) :
    ac.asyncCommand m.fn m.privdata cmd = some (.ok, ac.monitored m cmd) := by
  rw [asyncCommand, if_neg (by simp [hopen]), hkind]
  rfl

theorem asyncCommand_closing {ac : AsyncContext} (hclosing : ac.flags.closing = true)
    (fn : Option ℕ) (privdata : ℕ) (cmd : List UInt8) :
    ac.asyncCommand fn privdata cmd = some (.err, ac) := by
  rw [asyncCommand, if_pos hclosing]

theorem Awaiting.of_monitored {ac ac' : AsyncContext} {m : RedisCallback} (cmd : List UInt8)
    (hbooks : Ledger ac.trace ac.replies 0) (hmonitoring : ac'.Monitoring)
    (htrace : ac'.trace = (ac.monitored m cmd).trace)
    (hreplies : ac'.replies = (ac.monitored m cmd).replies) : Awaiting m ac' := by
  refine ⟨hmonitoring, ?_, ac.replies, hreplies⟩
  rw [htrace, hreplies]
  exact (hbooks.note (e := .enterMode) rfl rfl rfl).accept [m]

end Script

/-- How MONITOR comes to be issued with the callback `m`, after ordinary commands
only: between two events, or by the callback of a reply, while `rest` is left of
what was read and the loop holds the record of that callback. -/
inductive MonitorIssued (script : ℕ → List ApiCall) (m : RedisCallback) :
    AsyncContext → Option (RedisCallback × List ReplyTree) → Prop
  | outside {ac ac' : AsyncContext} {cmd : List UInt8} :
      ac.Serving → ac.cErr = none → commandKind cmd = some .monitor →
      ac.asyncCommand m.fn m.privdata cmd = some (.ok, ac') → MonitorIssued script m ac' none
  | inside {ac ac' : AsyncContext} {cmd : List UInt8} {before : List ApiCall}
      {held cb : RedisCallback} {reply : ReplyTree} (rest : List ReplyTree) :
      ac.Serving → ac.cErr = none → Clean .enterMode ac → commandKind cmd = some .monitor →
      (∀ call ∈ before, call.Ordinary) →
      script (ac.trace.countP Event.isRun) = before ++ [.command m.fn m.privdata cmd] →
      ac.processReply script held reply = some (.next cb ac') → ac'.flags.monitoring = true →
      MonitorIssued script m ac' (some (cb, rest))

section Script

variable {script : ℕ → List ApiCall}

/-- A turn after which the loop goes on has run the first pending callback. -/
theorem processReply_next {ac ac' : AsyncContext} {held cb : RedisCallback} {reply : ReplyTree}
    (hs : ac.Serving) (hturn : ac.processReply script held reply = some (.next cb ac')) :
    ∃ queue, ac.replies = cb :: queue ∧
      { ac.record (.reply reply) with replies := queue }.runCallback script cb (some reply) =
        some ac' := by
  obtain ⟨c, queue, hq⟩ : ∃ c queue, ac.replies = c :: queue := by
    cases hq : ac.replies with
    | cons c queue => exact ⟨c, queue, rfl⟩
    | nil =>
        -- Without a pending command there is an assertion, or the end.
        cases reply <;>
          simp [processReply, pickCallback, shiftReplies, record, hq, hs.plain.subscribed,
            hs.plain.monitoring] at hturn
  have hpick : (ac.record (.reply reply)).pickCallback held reply =
      some (.run c { ac.record (.reply reply) with replies := queue }) := by
    simp only [pickCallback, shiftReplies, record, hq]
  simp only [processReply, hpick] at hturn
  cases hfn : c.fn with
  | none =>
      rw [if_pos hfn] at hturn
      cases hturn
      exact ⟨queue, hq, by simp only [runCallback, hfn]⟩
  | some fn =>
      rw [if_neg (by simp [hfn])] at hturn
      obtain ⟨ac₁, hrun, hnext⟩ := Option.bind_eq_some_iff.mp hturn
      split at hnext
      · obtain ⟨ac₂, -, hdone⟩ := Option.map_eq_some_iff.mp hnext
        cases hdone
      · cases hnext
        exact ⟨queue, hq, hrun⟩

/-- The turn of the loop in which a callback issues MONITOR. -/
theorem awaiting_of_processReply {ac ac' : AsyncContext} {cmd : List UInt8}
    {before : List ApiCall} {m held cb : RedisCallback} {reply : ReplyTree} (hs : ac.Serving)
    (hcErr : ac.cErr = none) (hclean : Clean .enterMode ac)
    (hkind : commandKind cmd = some .monitor) (hbefore : ∀ call ∈ before, call.Ordinary)
    (hscript : script (ac.trace.countP Event.isRun) = before ++ [.command m.fn m.privdata cmd])
    (hturn : ac.processReply script held reply = some (.next cb ac'))
    (hmonitoring : ac'.flags.monitoring = true) : Awaiting m ac' := by
  obtain ⟨queue, hq, hrun⟩ := processReply_next hs hturn
  cases hfn : cb.fn with
  | none =>
      simp only [runCallback, hfn] at hrun
      obtain rfl := Option.some.inj hrun
      exact absurd hmonitoring (by simp [record, hs.plain.monitoring])
  | some fn =>
      have hcount : (ac.trace ++ [Event.reply reply]).countP Event.isRun =
          ac.trace.countP Event.isRun := by simp [Event.isRun]
      simp only [runCallback, hfn] at hrun
      obtain ⟨ac₂, hfold, rfl⟩ := Option.map_eq_some_iff.mp hrun
      simp only [record, hcount, hscript, List.foldlM_append, List.foldlM_cons,
        List.foldlM_nil, bind_pure] at hfold
      generalize hinside : ({ ac with
        flags := { ac.flags with inCallback := true }
        replies := queue
        trace := ac.trace ++ [.reply reply] ++ [.run fn cb.privdata (some reply)] } :
          AsyncContext) = inside at hfold
      have hplain : inside.Plain := by
        subst hinside
        exact ⟨hs.plain.1, hs.plain.2, hs.plain.3, hs.plain.4, hs.plain.5⟩
      have hclean' : Clean .enterMode inside := by
        subst hinside
        simpa [Clean, log] using hclean
      have hissues := performAll_issued hplain hclean' (by rw [← hinside]) before
      obtain ⟨ac₃, hfold₃, hclean₃⟩ := hissues.total hbefore
      obtain ⟨cbs, h₃⟩ := hissues.sound ac₃ hfold₃ hclean₃
      have hbooks : Ledger ac₃.trace ac₃.replies 0 := by
        have hserve := ((hq ▸ hs.ledger : Ledger ac.trace (cb :: queue) 0).serve reply).accept cbs
        rw [h₃.trace, h₃.replies, ← hinside, List.append_nil]
        simpa [runEvents, hfn] using hserve
      rw [hfold₃] at hfold
      replace hfold : (ac₃.asyncCommand m.fn m.privdata cmd).map Prod.snd = some ac₂ := hfold
      cases hclosing : ac₃.flags.closing with
      | true =>
          rw [asyncCommand_closing hclosing, Option.map_some] at hfold
          obtain rfl : ac₃ = ac₂ := Option.some.inj hfold
          exact absurd hmonitoring (by simp [h₃.plain.monitoring])
      | false =>
          rw [asyncCommand_monitor hkind hclosing, Option.map_some] at hfold
          obtain rfl : ac₃.monitored m cmd = ac₂ := Option.some.inj hfold
          refine .of_monitored cmd hbooks ⟨rfl, h₃.plain.subscribed, hclosing, rfl,
            h₃.cErr.trans ?_, h₃.freed.trans ?_⟩ rfl rfl
          · rw [← hinside]
            exact hcErr
          · rw [← hinside]
            exact hs.live

theorem MonitorIssued.awaiting {ac : AsyncContext} {m : RedisCallback}
    {start : Option (RedisCallback × List ReplyTree)} (h : MonitorIssued script m ac start) :
    Awaiting m ac := by
  cases h with
  | outside hs hcErr hkind hissue =>
      rename_i ac₀ cmd
      cases hclosing : ac₀.flags.closing with
      | true =>
          rw [asyncCommand_closing hclosing] at hissue
          simp at hissue
      | false =>
          rw [asyncCommand_monitor hkind hclosing] at hissue
          cases hissue
          exact .of_monitored cmd hs.ledger
            ⟨rfl, hs.plain.subscribed, hclosing, hs.idle, hcErr, hs.live⟩ rfl rfl
  | inside rest hs hcErr hclean hkind hbefore hscript hturn hmonitoring =>
      exact awaiting_of_processReply hs hcErr hclean hkind hbefore hscript hturn hmonitoring

end Script

/-! ## Delivery -/

/-- What happens after MONITOR was issued: the rest of the read it was issued in,
and then the events of the socket. -/
def afterMonitor (script : ℕ → List ApiCall) (start : Option (RedisCallback × List ReplyTree))
    (events : List Traffic) (ac : AsyncContext) : Option AsyncContext :=
  match start with
  | none => events.foldlM (carry script) ac
  | some (cb, rest) =>
      (ac.processReplies script rest none cb).bind fun ac ↦ events.foldlM (carry script) ac

/-- The replies that arrive after MONITOR was issued, read by read. -/
def arrivals (start : Option (RedisCallback × List ReplyTree)) (events : List Traffic) :
    List (List ReplyTree) :=
  (start.map Prod.snd).toList ++ events.filterMap Traffic.round

/-- All replies were processed: those of the commands by the callbacks of the
commands, in order, and what comes after the reply to MONITOR, the last command,
by its callback `m`. -/
structure Delivered (m : RedisCallback) (replies : List ReplyTree) (ac ac' : AsyncContext) :
    Prop where
  live : ac'.freed = false
  processed : processed ac'.trace = processed ac.trace ++ replies
  invocations : invocations ac'.trace =
    answers (accepted ac.trace ++ List.replicate replies.length m)
      ((MuxHiredis.processed ac'.trace).map some)

section Script

variable {script : ℕ → List ApiCall}

theorem afterMonitor_relayed {ac : AsyncContext} (h : ac.Monitoring)
    (hsilent : Silent script ac) (start : Option (RedisCallback × List ReplyTree))
    (events : List Traffic) :
    Relayed script ac (arrivals start events).flatten
      (Relay.rounds ReplyTree.isError .null ((start.map Prod.fst).getD .null) ac.replies
        (arrivals start events))
      (afterMonitor script start events ac) := by
  cases start with
  | none => exact foldlM_carry_relayed h hsilent events
  | some p =>
      exact (processReplies_turn h hsilent p.1 p.2).relayed fun ac' h' hsilent' ↦
        foldlM_carry_relayed h' hsilent' events

/-- What was run for the replies after MONITOR decides whether all was. -/
theorem delivered_iff {m : RedisCallback} {ac ac' : AsyncContext} (h : Awaiting m ac)
    {replies : List ReplyTree} {taken pending : List RedisCallback}
    (hpending : ac.replies = pending ++ [m]) (hs : Served script ac replies taken ac')
    (hlen : taken.length = replies.length)
    (hfront : taken.take pending.length = pending.take replies.length) :
    Delivered m replies ac ac' ↔ ∀ cb ∈ taken.drop pending.length, m.Like cb := by
  have hbooks := h.books
  have hsplit : accepted ac.trace ++ List.replicate replies.length m =
      (accepted ac.trace).take (processed ac.trace).length ++
        (pending ++ List.replicate (replies.length + 1) m) := by
    have hdrop := hbooks.pending_eq
    rw [Nat.add_zero, hpending] at hdrop
    conv_lhs => rw [← List.take_append_drop (processed ac.trace).length (accepted ac.trace),
      ← hdrop]
    simp [List.replicate_succ]
  have hbefore : invocations ac.trace =
      answers ((accepted ac.trace).take (processed ac.trace).length)
        ((processed ac.trace).map some) := by
    rw [hbooks.served, List.replicate_zero, List.append_nil, answers_take, List.length_map]
  have hcount := hbooks.count
  have hequal : invocations ac'.trace =
        answers (accepted ac.trace ++ List.replicate replies.length m)
          ((processed ac'.trace).map some) ↔
      answers taken (replies.map some) =
        answers (pending ++ List.replicate (replies.length + 1) m) (replies.map some) := by
    have hfirst : ((accepted ac.trace).take (processed ac.trace).length).length =
        ((processed ac.trace).map some).length := by
      simp
      omega
    rw [hs.invocations, hs.processed, List.map_append, hsplit, hbefore,
      answers_append hfirst, List.append_cancel_left_eq]
  have hlen' : taken.length = (replies.map some).length := by simpa using hlen
  have hfront' : taken.take pending.length = pending.take (replies.map some).length := by
    simpa using hfront
  have hroom : (replies.map some).length ≤ replies.length + 1 := by simp
  rw [← answers_eq_iff hlen' hfront' hroom, ← hequal]
  exact ⟨Delivered.invocations, fun hi ↦ ⟨hs.monitoring.live, hs.processed, hi⟩⟩

/-- What follows MONITOR is delivered exactly when each read ends on a callback
like that of MONITOR, or little enough comes after it. -/
theorem monitor_delivered_iff {m : RedisCallback} {ac : AsyncContext}
    {start : Option (RedisCallback × List ReplyTree)} (h : MonitorIssued script m ac start)
    (hsilent : Silent script ac) (events : List Traffic) :
    (∃ ac', afterMonitor script start events ac = some ac' ∧
        Delivered m (arrivals start events).flatten ac ac') ↔
      Relay.Keeps m.Like ReplyTree.isError .null ((start.map Prod.fst).getD .null)
        ac.replies.dropLast ac.replies.length (arrivals start events) := by
  have hawaiting := h.awaiting
  obtain ⟨pending, hpending⟩ := hawaiting.last
  have hrelayed := afterMonitor_relayed hawaiting.toMonitoring hsilent start events
  have hlike : ∀ a ∈ [m], m.Like a := by simp [RedisCallback.Like]
  rw [hpending] at hrelayed ⊢
  rw [List.dropLast_concat, ← Relay.right_rounds_iff (List.cons_ne_nil m []) hlike]
  generalize hp : Relay.rounds ReplyTree.isError RedisCallback.null
    ((start.map Prod.fst).getD .null) (pending ++ [m]) (arrivals start events) = p at hrelayed ⊢
  have htake : p.2 = true → p.1.take pending.length =
      pending.take (arrivals start events).flatten.length := hp ▸ Relay.take_rounds
  have hlength : p.2 = true → p.1.length = (arrivals start events).flatten.length :=
    hp ▸ Relay.length_rounds
  constructor
  · rintro ⟨ac', hrun, hdelivered⟩
    cases hgoes : p.2 with
    | false => exact absurd (hrelayed.ended hgoes ac' hrun) (by simp [hdelivered.live])
    | true =>
        obtain ⟨ac'', hrun', hs⟩ := hrelayed.served hgoes
        obtain rfl : ac' = ac'' := Option.some.inj (hrun.symm.trans hrun')
        exact ⟨hgoes, (delivered_iff hawaiting hpending hs (hlength hgoes)
          (htake hgoes)).mp hdelivered⟩
  · intro hp
    obtain ⟨ac', hrun, hs⟩ := hrelayed.served hp.lasts
    exact ⟨ac', hrun, (delivered_iff hawaiting hpending hs (hlength hp.lasts)
      (htake hp.lasts)).mpr hp.taken⟩

end Script

/-- MONITOR, as it is sent. -/
def monitorCommand : List UInt8 := ascii "*1\r\n$7\r\nMONITOR\r\n"

theorem monitorIssued_first :
    MonitorIssued (fun _ ↦ []) ⟨some 1, 7⟩
      ((redisAsyncInitialize none false false).monitored ⟨some 1, 7⟩ monitorCommand) none :=
  .outside ⟨.nil, by simp [redisAsyncInitialize], ⟨rfl, rfl, rfl, rfl, rfl⟩, rfl, rfl⟩ rfl
    (by decide) (asyncCommand_monitor (by decide) rfl ⟨some 1, 7⟩)

/-- A read that completes no reply comes before two messages, the second of which
is dropped. -/
theorem monitor_message_dropped :
    ∃ ac, MonitorIssued (fun _ ↦ []) ⟨some 1, 7⟩ ac none ∧ Silent (fun _ ↦ []) ac ∧
      ¬∃ ac', afterMonitor (fun _ ↦ []) none [.readable [.status (ascii "OK")], .readable [],
          .readable [.status (ascii "a")], .readable [.status (ascii "b")]] ac = some ac' ∧
        Delivered ⟨some 1, 7⟩
          [.status (ascii "OK"), .status (ascii "a"), .status (ascii "b")] ac ac' := by
  refine ⟨_, monitorIssued_first, fun _ _ ↦ rfl, ?_⟩
  rintro ⟨ac', hrun, hdelivered⟩
  cases hrun
  exact absurd (congrArg List.length hdelivered.invocations) (by decide)

/-- All messages are delivered when every read brings one. -/
theorem monitor_delivered_iff_each :
    ∃ ac', afterMonitor (fun _ ↦ []) none [.readable [.status (ascii "OK"), .status (ascii "a")],
        .writable 1, .readable [.status (ascii "b")]]
        ((redisAsyncInitialize none false false).monitored ⟨some 1, 7⟩ monitorCommand) = some ac' ∧
      Delivered ⟨some 1, 7⟩ [.status (ascii "OK"), .status (ascii "a"), .status (ascii "b")]
        ((redisAsyncInitialize none false false).monitored ⟨some 1, 7⟩ monitorCommand) ac' :=
  (monitor_delivered_iff monitorIssued_first (fun _ _ ↦ rfl)
    [.readable [.status (ascii "OK"), .status (ascii "a")], .writable 1,
      .readable [.status (ascii "b")]]).mpr (by
        simp [Relay.Keeps, arrivals, List.filterMap_cons, Traffic.round, monitored,
          redisAsyncInitialize, ReplyTree.isError])

end AsyncContext

end MuxHiredis
