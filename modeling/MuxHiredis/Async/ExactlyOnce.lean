import MuxHiredis.Async.Growth
import MuxHiredis.Async.Ledger

/-!
# Every accepted command is answered once

A context that never enters subscribe or monitor mode runs the callbacks of its
commands in the order in which they were accepted: with the replies that were
processed, and with `NULL` during teardown.
-/

namespace MuxHiredis

open Logged

/-- A command that does not enter a mode. -/
def Ordinary (cmd : List UInt8) : Prop :=
  commandKind cmd = some .regular ∨ commandKind cmd = some .unsubscribe

def ApiCall.Ordinary : ApiCall → Prop
  | .command _ _ cmd => MuxHiredis.Ordinary cmd
  | .disconnect => True
  | .free => True

/-- No callback enters a mode. -/
def OrdinaryScript (script : ℕ → List ApiCall) : Prop :=
  ∀ n, ∀ call ∈ script n, call.Ordinary

namespace AsyncContext

/-- Nothing is subscribed or monitored. -/
structure Plain (ac : AsyncContext) : Prop where
  subscribed : ac.flags.subscribed = false
  monitoring : ac.flags.monitoring = false
  invalid : ac.invalid = []
  channels : ac.channels.entries = []
  patterns : ac.patterns.entries = []

/-! ## What callbacks can do -/

/-- From `ac` to `ac'` the events `es` were recorded and then the commands `cbs`
accepted, none of them when the context was closing. -/
structure Issued (ac : AsyncContext) (es : List Event) (cbs : List RedisCallback)
    (ac' : AsyncContext) : Prop where
  trace : ac'.trace = ac.trace ++ es ++ cbs.map .accept
  replies : ac'.replies = ac.replies ++ cbs
  plain : ac'.Plain
  inCallback : ac'.flags.inCallback = ac.flags.inCallback
  cErr : ac'.cErr = ac.cErr
  freed : ac'.freed = ac.freed
  closing : ac.flags.closing = true → ac'.flags.closing = true ∧ cbs = []

theorem Issued.refl {ac : AsyncContext} (h : ac.Plain) : Issued ac [] [] ac :=
  ⟨by simp, by simp, h, rfl, rfl, rfl, fun hc ↦ ⟨hc, rfl⟩⟩

theorem Issued.trans {ac₁ ac₂ ac₃ : AsyncContext} {es : List Event}
    {cbs cbs' : List RedisCallback} (h : Issued ac₁ es cbs ac₂) (h' : Issued ac₂ [] cbs' ac₃) :
    Issued ac₁ es (cbs ++ cbs') ac₃ := by
  refine ⟨?_, ?_, h'.plain, h'.inCallback.trans h.inCallback, h'.cErr.trans h.cErr,
    h'.freed.trans h.freed, ?_⟩
  · rw [h'.trace, h.trace, List.map_append, List.append_nil, List.append_assoc]
  · rw [h'.replies, h.replies, List.append_assoc]
  · intro hc
    obtain ⟨hc', rfl⟩ := h.closing hc
    obtain ⟨hc'', rfl⟩ := h'.closing hc'
    exact ⟨hc'', rfl⟩

theorem asyncCommand_issued {ac : AsyncContext} (hp : ac.Plain) (hclean : Clean .enterMode ac)
    (fn : Option ℕ) (privdata : ℕ) (cmd : List UInt8) :
    Ends .enterMode (Ordinary cmd) (ac.asyncCommand fn privdata cmd)
      fun p ↦ ∃ cbs, Issued ac [] cbs p.2 := by
  unfold asyncCommand
  by_cases hc : ac.flags.closing = true
  · rw [if_pos hc]
    exact .pure hclean ⟨[], .refl hp⟩
  · rw [if_neg hc]
    cases hk : commandKind cmd with
    | none => exact ⟨fun hord ↦ by simp [Ordinary, hk] at hord, by simp⟩
    | some kind =>
        cases kind with
        | subscribe pattern names =>
            refine ⟨fun hord ↦ by simp [Ordinary, hk] at hord, ?_⟩
            rintro p ⟨⟩ hmode
            exact (hmode (by simp [log, record, registerCallback])).elim
        | monitor =>
            refine ⟨fun hord ↦ by simp [Ordinary, hk] at hord, ?_⟩
            rintro p ⟨⟩ hmode
            exact (hmode (by simp [log, record, registerCallback])).elim
        | unsubscribe =>
            simp only [Option.map_some, registerCallback, hp.subscribed, Bool.false_eq_true,
              if_false]
            exact .pure hclean ⟨[], .refl hp⟩
        | regular =>
            simp only [Option.map_some, registerCallback, hp.subscribed, Bool.false_eq_true,
              if_false]
            refine .pure ?_ ⟨[⟨fn, privdata⟩], ?_⟩
            · simpa [Clean, log, record] using hclean
            · exact ⟨by simp [record], rfl, ⟨hp.1, hp.2, hp.3, hp.4, hp.5⟩, rfl, rfl, rfl,
                fun hc' ↦ (hc hc').elim⟩

theorem performInside_issued {ac : AsyncContext} (hp : ac.Plain) (hclean : Clean .enterMode ac)
    (hin : ac.flags.inCallback = true) (call : ApiCall) :
    Ends .enterMode call.Ordinary (performInside call ac) fun ac' ↦
      ∃ cbs, Issued ac [] cbs ac' := by
  cases call with
  | command fn privdata cmd =>
      exact (asyncCommand_issued hp hclean fn privdata cmd).map (fun _ ↦ rfl) fun _ _ h ↦ h
  | disconnect =>
      simp only [performInside, performWith, disconnectWith, hin, Bool.true_eq_false, false_and,
        if_false]
      exact .pure hclean ⟨[], by simp, by simp, ⟨hp.1, hp.2, hp.3, hp.4, hp.5⟩, hin.symm, rfl,
        rfl, fun _ ↦ ⟨by simp [Flags.closing], rfl⟩⟩
  | free =>
      simp only [performInside, performWith, freeWith, hin, if_true]
      exact .pure hclean ⟨[], by simp, by simp, ⟨hp.1, hp.2, hp.3, hp.4, hp.5⟩, hin.symm, rfl,
        rfl, fun _ ↦ ⟨by simp [Flags.closing], rfl⟩⟩

/-- What a callback calls, one after the other. -/
theorem performAll_issued {inside : AsyncContext} (hp : inside.Plain)
    (hclean : Clean .enterMode inside) (hin : inside.flags.inCallback = true)
    (calls : List ApiCall) :
    Ends .enterMode (∀ call ∈ calls, call.Ordinary)
      (calls.foldlM (fun ac call ↦ performInside call ac) inside)
      fun ac' ↦ ∃ cbs, Issued inside [] cbs ac' := by
  refine .foldlM (fun call ↦ performInside_extends call) ?_ hclean ⟨[], .refl hp⟩
  rintro call hcall ac₁ hclean₁ ⟨cbs, h₁⟩
  have hstep := performInside_issued h₁.plain hclean₁ (h₁.inCallback.trans hin) call
  refine ⟨fun hord ↦ hstep.total (hord call hcall), fun ac₂ h₂ hclean₂ ↦ ?_⟩
  obtain ⟨cbs', h₂⟩ := hstep.sound ac₂ h₂ hclean₂
  exact ⟨cbs ++ cbs', h₁.trans h₂⟩

section Script

variable {script : ℕ → List ApiCall}

theorem runCallback_issued {ac : AsyncContext} (hp : ac.Plain) (hclean : Clean .enterMode ac)
    (hidle : ac.flags.inCallback = false) (cb : RedisCallback) (reply : Option ReplyTree) :
    Ends .enterMode (OrdinaryScript script) (ac.runCallback script cb reply)
      fun ac' ↦ ∃ cbs, Issued ac (runEvents cb reply) cbs ac' := by
  unfold runCallback
  cases hfn : cb.fn with
  | none =>
      refine .pure hclean ⟨[], ?_⟩
      have hes : runEvents cb reply = [] := by simp [runEvents, hfn]
      rw [hes]
      exact .refl hp
  | some fn =>
      have hes : runEvents cb reply = [.run fn cb.privdata reply] := by simp [runEvents, hfn]
      rw [hes]
      simp only
      generalize hinside : ({ ac with flags := { ac.flags with inCallback := true } }.record
        (.run fn cb.privdata reply)) = inside
      have hstart : inside.Plain ∧ inside.flags.inCallback = true ∧ Clean .enterMode inside := by
        subst hinside
        refine ⟨⟨hp.1, hp.2, hp.3, hp.4, hp.5⟩, rfl, ?_⟩
        simpa [Clean, log, record] using hclean
      have hfold := (performAll_issued hstart.1 hstart.2.2 hstart.2.1
        (script (ac.trace.countP Event.isRun))).imp
          fun hord : OrdinaryScript script ↦ hord _
      refine hfold.map (fun _ ↦ rfl) ?_
      rintro ac' - ⟨cbs, h⟩
      subst hinside
      exact ⟨cbs, by simpa [record] using h.trace, h.replies,
        ⟨h.plain.1, h.plain.2, h.plain.3, h.plain.4, h.plain.5⟩, hidle.symm, h.cErr, h.freed,
        h.closing⟩

/-! ## Teardown -/

/-- A context whose pending callbacks were all run without a reply. -/
structure Drained (ac : AsyncContext) (es : List Event) (ac' : AsyncContext) : Prop where
  trace : ac'.trace = ac.trace ++ es
  replies : ac'.replies = []
  plain : ac'.Plain

theorem drainReplies_drained {ac : AsyncContext} (hp : ac.Plain) (hclean : Clean .enterMode ac)
    (hidle : ac.flags.inCallback = false) (hc : ac.flags.closing = true ∨ ac.replies = []) :
    Ends .enterMode (OrdinaryScript script)
      (drainFor script shiftReplies ac.replies.length ac)
      (Drained ac (ac.replies.flatMap (runEvents · none))) := by
  generalize hpending : ac.replies = pending at hc
  induction pending generalizing ac with
  | nil => exact .pure hclean ⟨by simp, hpending, hp⟩
  | cons cb pending ih =>
      replace hc : ac.flags.closing = true := hc.resolve_right (by simp)
      have hshift : ac.shiftReplies = some (cb, { ac with replies := pending }) := by
        simp only [shiftReplies, hpending]
      simp only [List.length_cons, drainFor, hshift]
      refine (runCallback_issued
        (show ({ ac with replies := pending } : AsyncContext).Plain from
          ⟨hp.1, hp.2, hp.3, hp.4, hp.5⟩) hclean hidle cb none).bind
          (drainFor_extends script shiftReplies_trace _) ?_
      rintro ac₁ hclean₁ ⟨cbs, h₁⟩
      obtain ⟨hc₁, rfl⟩ := h₁.closing hc
      have hreplies : ac₁.replies = pending := by rw [h₁.replies, List.append_nil]
      refine (ih h₁.plain hclean₁ (h₁.inCallback.trans hidle) hreplies (Or.inl hc₁)).mono ?_
      intro ac₂ _ h₂
      refine ⟨?_, h₂.replies, h₂.plain⟩
      rw [h₂.trace, h₁.trace, List.map_nil, List.append_nil, List.append_assoc,
        ← List.flatMap_cons (f := (runEvents · none))]

/-- The context was torn down, with `NULL` for each pending callback. -/
structure Torn (ac ac' : AsyncContext) : Prop where
  freed : ac'.freed = true
  trace : ∃ tail, ac'.trace =
      ac.trace ++ .teardown :: (ac.replies.flatMap (runEvents · none) ++ tail) ∧
    (tail = [] ∨ ∃ status, tail = [.onDisconnect status])

theorem notifyDisconnect_trace (ac : AsyncContext) :
    ∃ tail, ac.notifyDisconnect.trace = ac.trace ++ tail ∧
      (tail = [] ∨ ∃ status, tail = [.onDisconnect status]) := by
  unfold notifyDisconnect
  split
  · exact ⟨[.onDisconnect (if ac.flags.freeing ∨ ac.err = none then .ok else .err)], rfl,
      Or.inr ⟨_, rfl⟩⟩
  · exact ⟨[], (List.append_nil _).symm, Or.inl rfl⟩

theorem asyncFree_torn {ac : AsyncContext} (hp : ac.Plain) (hclean : Clean .enterMode ac)
    (hidle : ac.flags.inCallback = false) (hc : ac.flags.closing = true ∨ ac.replies = []) :
    Ends .enterMode (OrdinaryScript script) (ac.asyncFree script) (Torn ac) := by
  have hclean' : Clean .enterMode (ac.record .teardown) := by
    simpa [Clean, log, record] using hclean
  have hplain : (ac.record .teardown).Plain := ⟨hp.1, hp.2, hp.3, hp.4, hp.5⟩
  refine (drainReplies_drained hplain hclean' hidle hc).bind
    ((endSubscriptions_extends script).map trace_prefix_notifyDisconnect) ?_
  intro ac₁ hclean₁ h₁
  -- Without subscriptions nothing else is pending.
  have hend : ac₁.endSubscriptions script = some ac₁ := by
    simp [endSubscriptions, h₁.plain.invalid, drainFor, h₁.plain.channels, h₁.plain.patterns,
      runAll]
  rw [hend, Option.map_some]
  have htrace : ac₁.trace =
      ac.trace ++ .teardown :: (ac.replies.flatMap (runEvents · none)) := by
    rw [h₁.trace, record, List.append_assoc]
    rfl
  obtain ⟨tail, htail, hkind⟩ := notifyDisconnect_trace ac₁
  refine .pure ?_ ⟨rfl, tail, ?_, hkind⟩
  · show .enterMode ∉ ac₁.notifyDisconnect.trace
    rw [htail, List.mem_append, not_or]
    refine ⟨hclean₁, ?_⟩
    rcases hkind with rfl | ⟨status, rfl⟩ <;> simp
  · show ac₁.notifyDisconnect.trace = _
    rw [htail, htrace, List.append_assoc, List.cons_append]

theorem asyncDisconnect_torn {ac : AsyncContext} (hp : ac.Plain) (hclean : Clean .enterMode ac)
    (hidle : ac.flags.inCallback = false) (hc : ac.cErr ≠ none ∨ ac.replies = []) :
    Ends .enterMode (OrdinaryScript script) (ac.asyncDisconnect script) (Torn ac) := by
  have hp' : ∀ err flags, flags.subscribed = ac.flags.subscribed →
      flags.monitoring = ac.flags.monitoring →
      ({ ac with err := err, flags := flags } : AsyncContext).Plain := by
    intro err flags hs hm
    exact ⟨hs.trans hp.1, hm.trans hp.2, hp.3, hp.4, hp.5⟩
  by_cases herr : ac.cErr = none
  · have hreplies := hc.resolve_left fun h ↦ h herr
    have heq : ac.asyncDisconnect script =
        ({ ac with err := ac.cErr } : AsyncContext).asyncFree script := by
      unfold asyncDisconnect
      simp only [if_pos herr]
      split
      · rfl
      · rename_i hcons
        simp [hreplies] at hcons
    rw [heq]
    exact (asyncFree_torn (hp' ac.cErr ac.flags rfl rfl) hclean hidle (Or.inr hreplies)).mono
      fun ac' _ h ↦ ⟨h.freed, h.trace⟩
  · have heq : ac.asyncDisconnect script = ({ ac with
        err := ac.cErr
        flags := { ac.flags with disconnecting := true } } : AsyncContext).asyncFree script := by
      unfold asyncDisconnect
      simp only [if_neg herr]
    rw [heq]
    exact (asyncFree_torn (hp' ac.cErr { ac.flags with disconnecting := true } rfl rfl) hclean
      hidle (Or.inl rfl)).mono fun ac' _ h ↦ ⟨h.freed, h.trace⟩

/-! ## Serving and over -/

/-- A context that was not torn down: its books are right. -/
structure Serving (ac : AsyncContext) : Prop where
  ledger : Ledger ac.trace ac.replies 0
  no_teardown : .teardown ∉ ac.trace
  plain : ac.Plain
  idle : ac.flags.inCallback = false
  live : ac.freed = false

/-- A context that was torn down: its books were right, and then each pending
callback was run with `NULL`. -/
structure Over (ac : AsyncContext) : Prop where
  freed : ac.freed = true
  books : ∃ before pending tail, Ledger before pending 0 ∧ .teardown ∉ before ∧
    ac.trace = before ++ .teardown :: (pending.flatMap (runEvents · none) ++ tail) ∧
    (tail = [] ∨ ∃ status, tail = [.onDisconnect status])

theorem Torn.congr (ac : AsyncContext) {ac₁ ac' : AsyncContext} (h : Torn ac₁ ac')
    (htrace : ac₁.trace = ac.trace)
    (hreplies : ac₁.replies = ac.replies) : Torn ac ac' :=
  ⟨h.freed, htrace ▸ hreplies ▸ h.trace⟩

theorem Torn.over {ac ac' : AsyncContext} (h : Torn ac ac') (hledger : Ledger ac.trace ac.replies 0)
    (hno : .teardown ∉ ac.trace) : Over ac' := by
  obtain ⟨tail, htrace, hkind⟩ := h.trace
  exact ⟨h.freed, ac.trace, ac.replies, tail, hledger, hno, htrace, hkind⟩

theorem teardown_not_mem_runEvents (cb : RedisCallback) (reply : Option ReplyTree) :
    Event.teardown ∉ runEvents cb reply := by
  unfold runEvents
  cases cb.fn <;> simp

theorem Torn.processed_eq {ac ac' : AsyncContext} (h : Torn ac ac') :
    processed ac'.trace = processed ac.trace := by
  obtain ⟨tail, htrace, hkind⟩ := h.trace
  have hruns : processed (ac.replies.flatMap (runEvents · none)) = [] := by
    rw [processed, List.filterMap_eq_nil_iff]
    intro e he
    obtain ⟨cb, -, hcb⟩ := List.mem_flatMap.mp he
    exact List.filterMap_eq_nil_iff.mp (processed_runEvents cb none) e hcb
  have htail : processed tail = [] := by
    rcases hkind with rfl | ⟨status, rfl⟩ <;> rfl
  rw [htrace, processed_append, ← List.singleton_append, processed_append, processed_append,
    hruns, htail]
  exact List.append_nil _

/-- From `ac` to `ac'` the first of `replies`, or all of them, were processed. -/
structure Took (replies : List ReplyTree) (ac ac' : AsyncContext) : Prop where
  state : ac'.Serving ∨ ac'.Over
  taken : ∃ taken, taken <+: replies ∧ processed ac'.trace = processed ac.trace ++ taken

theorem Took.none {replies : List ReplyTree} {ac ac' : AsyncContext}
    (h : ac'.Serving ∨ ac'.Over) (heq : processed ac'.trace = processed ac.trace) :
    Took replies ac ac' :=
  ⟨h, [], List.nil_prefix, by rw [heq, List.append_nil]⟩

theorem Torn.took {ac ac' : AsyncContext} (h : Torn ac ac')
    (hledger : Ledger ac.trace ac.replies 0) (hno : .teardown ∉ ac.trace)
    {replies : List ReplyTree} : Took replies ac ac' :=
  .none (Or.inr (h.over hledger hno)) h.processed_eq

/-- A callback that answers the reply `reply`, and what it issued. -/
theorem Issued.answered {ac ac' : AsyncContext} (hs : ac.Serving) {cb : RedisCallback}
    {rest cbs : List RedisCallback} (hrest : ac.replies = cb :: rest) {reply : ReplyTree}
    (h : Issued { ac.record (.reply reply) with replies := rest }
      (runEvents cb (some reply)) cbs ac') :
    ac'.Serving ∧ processed ac'.trace = processed ac.trace ++ [reply] ∧
      (accepted ac.trace).length ≤ (accepted ac'.trace).length := by
  have htrace : ac'.trace =
      ac.trace ++ [.reply reply] ++ runEvents cb (some reply) ++ cbs.map .accept := h.trace
  have hledger : Ledger ac'.trace ac'.replies 0 := by
    rw [htrace, h.replies]
    exact ((hrest ▸ hs.ledger : Ledger ac.trace (cb :: rest) 0).serve reply).accept cbs
  refine ⟨⟨hledger, ?_, h.plain, h.inCallback.trans hs.idle, h.freed.trans hs.live⟩, ?_, ?_⟩
  · rw [htrace]
    simp [hs.no_teardown, teardown_not_mem_runEvents]
  · rw [htrace]
    simp only [processed_append, processed_runEvents, processed_accepts, List.append_nil]
    rfl
  · rw [htrace]
    simp

theorem processReply_ends {ac : AsyncContext} (hs : ac.Serving) (hclean : Clean .enterMode ac)
    (hpending : (processed ac.trace).length < (accepted ac.trace).length) (cb : RedisCallback)
    (reply : ReplyTree) :
    Ends .enterMode (OrdinaryScript script) (ac.processReply script cb reply) fun
      | .next _ ac' => ac'.Serving ∧ processed ac'.trace = processed ac.trace ++ [reply] ∧
          (accepted ac.trace).length ≤ (accepted ac'.trace).length
      | .done ac' => ac'.Over ∧ processed ac'.trace = processed ac.trace ++ [reply] := by
  have hlen := hs.ledger.length
  obtain ⟨cb', rest, hrest⟩ : ∃ cb' rest, ac.replies = cb' :: rest := by
    cases hr : ac.replies with
    | nil =>
        rw [hr, List.length_nil] at hlen
        omega
    | cons cb' rest => exact ⟨cb', rest, rfl⟩
  have hpick : (ac.record (.reply reply)).pickCallback cb reply =
      some (.run cb' { ac.record (.reply reply) with replies := rest }) := by
    simp only [pickCallback, shiftReplies, record, hrest]
  have hplain : ({ ac.record (.reply reply) with replies := rest } : AsyncContext).Plain :=
    ⟨hs.plain.1, hs.plain.2, hs.plain.3, hs.plain.4, hs.plain.5⟩
  have hclean' : Clean .enterMode
      ({ ac.record (.reply reply) with replies := rest } : AsyncContext) := by
    simpa [Clean, log, record] using hclean
  simp only [processReply, hpick]
  by_cases hfn : cb'.fn = none
  · rw [if_pos hfn]
    have hes : runEvents cb' (some reply) = [] := by simp [runEvents, hfn]
    have hissued := Issued.refl hplain
    rw [← hes] at hissued
    exact .pure hclean' (hissued.answered hs hrest)
  · rw [if_neg hfn]
    refine (runCallback_issued hplain hclean' hs.idle cb' (some reply)).bind ?_ ?_
    · intro ac₁ p h
      simp only at h
      split at h
      · exact (asyncFree_extends script).map (g := Processed.done) (fun _ ↦ List.prefix_rfl) _ _ h
      · exact Option.some.inj h ▸ List.prefix_rfl
    · rintro ac₁ hclean₁ ⟨cbs, h₁⟩
      have hserving := h₁.answered hs hrest
      by_cases hfree : ac₁.flags.freeing = true
      · simp only [if_pos hfree]
        have hclosing : ac₁.flags.closing = true := by simp [Flags.closing, hfree]
        refine (asyncFree_torn h₁.plain hclean₁ hserving.1.idle (Or.inl hclosing)).map
          (fun _ ↦ rfl) ?_
        exact fun ac₂ _ h₂ ↦ ⟨h₂.over hserving.1.ledger hserving.1.no_teardown,
          h₂.processed_eq.trans hserving.2.1⟩
      · simp only [if_neg hfree]
        exact .pure hclean₁ hserving

theorem endOfReplies_ends {ac : AsyncContext} (hs : ac.Serving) (hclean : Clean .enterMode ac)
    (failed : Option RedisErr) (cb : RedisCallback) :
    Ends .enterMode (OrdinaryScript script) (ac.endOfReplies script failed cb) (Took [] ac) := by
  cases failed with
  | some e =>
      have hplain : ({ ac with cErr := some e } : AsyncContext).Plain :=
        ⟨hs.plain.1, hs.plain.2, hs.plain.3, hs.plain.4, hs.plain.5⟩
      exact (asyncDisconnect_torn hplain hclean hs.idle (Or.inl (by simp))).mono fun ac' _ h ↦
        (Torn.congr ac h rfl rfl).took hs.ledger hs.no_teardown
  | none =>
      simp only [endOfReplies]
      split
      · rename_i hcue
        exact (asyncDisconnect_torn hs.plain hclean hs.idle (Or.inr hcue.2.2)).mono fun ac' _ h ↦
          h.took hs.ledger hs.no_teardown
      · rw [if_neg (by simp [hs.plain.monitoring])]
        exact .pure hclean (.none (Or.inl hs) rfl)

theorem processReplies_ends {ac : AsyncContext} (hs : ac.Serving) (hclean : Clean .enterMode ac)
    (replies : List ReplyTree) (failed : Option RedisErr) (cb : RedisCallback)
    (hcount : (processed ac.trace).length + replies.length ≤ (accepted ac.trace).length) :
    Ends .enterMode (OrdinaryScript script) (ac.processReplies script replies failed cb)
      (Took replies ac) := by
  induction replies generalizing ac cb with
  | nil => exact endOfReplies_ends hs hclean failed cb
  | cons reply rest ih =>
      simp only [List.length_cons] at hcount
      refine (processReply_ends hs hclean (by omega) cb reply).bind ?_ ?_
      · intro p ac' h
        cases p with
        | next cb' ac₁ => exact processReplies_extends script rest failed cb' ac₁ ac' h
        | done ac₁ => exact Option.some.inj h ▸ List.prefix_rfl
      · intro p hclean₁ hp
        cases p with
        | next cb' ac₁ =>
            obtain ⟨hs₁, hproc, hacc⟩ := hp
            have hlen : (processed ac₁.trace).length = (processed ac.trace).length + 1 := by
              rw [hproc, List.length_append, List.length_singleton]
            refine (ih hs₁ hclean₁ cb' (by omega)).mono fun ac₂ _ h ↦ ⟨h.state, ?_⟩
            obtain ⟨taken, hinit, htaken⟩ := h.taken
            refine ⟨reply :: taken, (List.prefix_cons_inj reply).mpr hinit, ?_⟩
            rw [htaken, hproc, List.append_assoc, List.singleton_append]
        | done ac₁ =>
            refine .pure hclean₁ ⟨Or.inr hp.1, [reply], ?_, hp.2⟩
            exact List.prefix_append [reply] rest

/-! ## Socket events -/

/-- The commands that a connect callback issues may be ordinary. -/
def OrdinaryCommands (commands : List (Option ℕ × ℕ × List UInt8)) : Prop :=
  ∀ c ∈ commands, Ordinary c.2.2

/-- A context in which events that are no business of the ledger were recorded
and then commands issued. -/
structure Ready (ac ac' : AsyncContext) : Prop where
  serving : ac'.Serving
  processed_eq : processed ac'.trace = processed ac.trace
  accepted_le : (accepted ac.trace).length ≤ (accepted ac'.trace).length
  cErr : ac'.cErr = ac.cErr

theorem Ready.refl {ac : AsyncContext} (hs : ac.Serving) : Ready ac ac := ⟨hs, rfl, le_rfl, rfl⟩

theorem Ready.issued {ac ac₁ ac₂ : AsyncContext} (h : Ready ac ac₁) {cbs : List RedisCallback}
    (h' : Issued ac₁ [] cbs ac₂) : Ready ac ac₂ := by
  have htrace : ac₂.trace = ac₁.trace ++ cbs.map .accept := by
    rw [h'.trace, List.append_nil]
  refine ⟨⟨?_, ?_, h'.plain, h'.inCallback.trans h.serving.idle, h'.freed.trans h.serving.live⟩,
    ?_, ?_, h'.cErr.trans h.cErr⟩
  · rw [htrace, h'.replies]
    exact h.serving.ledger.accept cbs
  · rw [htrace]
    simp [h.serving.no_teardown]
  · rw [htrace, processed_append, processed_accepts, List.append_nil, h.processed_eq]
  · rw [htrace, accepted_append, accepted_accepts, List.length_append]
    exact h.accepted_le.trans (Nat.le_add_right _ _)

theorem asyncCommand_ready {ac ac₁ : AsyncContext} (h : Ready ac ac₁)
    (hclean : Clean .enterMode ac₁) (fn : Option ℕ) (privdata : ℕ) (cmd : List UInt8) :
    Ends .enterMode (Ordinary cmd) ((ac₁.asyncCommand fn privdata cmd).map Prod.snd)
      (Ready ac) := by
  refine (asyncCommand_issued h.serving.plain hclean fn privdata cmd).map (fun _ ↦ rfl) ?_
  rintro p - ⟨cbs, h'⟩
  exact h.issued h'

theorem notifyConnect_ready {ac : AsyncContext} (hs : ac.Serving) (hclean : Clean .enterMode ac)
    (status : Status) (commands : List (Option ℕ × ℕ × List UInt8)) :
    Ends .enterMode (OrdinaryCommands commands) (ac.notifyConnect status commands)
      (Ready ac) := by
  unfold notifyConnect
  split
  · have hready : Ready ac (ac.record (.onConnect status)) := by
      refine ⟨⟨hs.ledger.note rfl rfl rfl, ?_,
        ⟨hs.plain.1, hs.plain.2, hs.plain.3, hs.plain.4, hs.plain.5⟩, hs.idle, hs.live⟩,
        ?_, ?_, rfl⟩
      · simpa [record] using hs.no_teardown
      · rw [record, processed_append]
        exact List.append_nil _
      · rw [record, accepted_append, List.length_append]
        exact Nat.le_add_right _ _
    refine .foldlM (fun c : Option ℕ × ℕ × List UInt8 ↦
      (asyncCommand_extends c.1 c.2.1 c.2.2).map fun _ ↦ List.prefix_rfl) ?_ ?_ hready
    · intro c hc ac₁ hclean₁ h₁
      exact (asyncCommand_ready h₁ hclean₁ c.1 c.2.1 c.2.2).imp fun hord ↦ hord c hc
    · simpa [Clean, log, record] using hclean
  · exact .pure hclean (.refl hs)

/-- The socket is looked at for the first time. -/
theorem asyncHandleConnect_ends {ac : AsyncContext} (hs : ac.Serving)
    (hclean : Clean .enterMode ac) (check : SocketCheck)
    (commands : List (Option ℕ × ℕ × List UInt8)) :
    Ends .enterMode (OrdinaryScript script ∧ OrdinaryCommands commands)
      (ac.asyncHandleConnect script check commands) fun
        | (.ok, ac') => ac'.Serving ∧ processed ac'.trace = processed ac.trace ∧
            (accepted ac.trace).length ≤ (accepted ac'.trace).length
        | (.err, ac') => ac'.Over ∧ processed ac'.trace = processed ac.trace := by
  have hserving : ∀ cErr flags, flags.subscribed = ac.flags.subscribed →
      flags.monitoring = ac.flags.monitoring → flags.inCallback = ac.flags.inCallback →
      ({ ac with cErr := cErr, flags := flags } : AsyncContext).Serving := by
    intro cErr flags hsub hmon hin
    exact ⟨hs.ledger, hs.no_teardown, ⟨hsub.trans hs.plain.1, hmon.trans hs.plain.2, hs.plain.3,
      hs.plain.4, hs.plain.5⟩, hin.trans hs.idle, hs.live⟩
  cases check with
  | inProgress =>
      exact .pure hclean ⟨hserving (some .io) ac.flags rfl rfl rfl, rfl, le_rfl⟩
  | failed =>
      have hnotify := (notifyConnect_ready (hserving (some .io) ac.flags rfl rfl rfl) hclean .err
        commands).imp (And.right : OrdinaryScript script ∧ OrdinaryCommands commands → _)
      refine (hnotify.bind (asyncDisconnect_extends script) ?_).map (fun _ ↦ rfl)
        (P := fun ac' ↦ ac'.Over ∧ processed ac'.trace = processed ac.trace) fun _ _ h ↦ h
      intro ac₁ hclean₁ h₁
      have herr : ac₁.cErr ≠ none := by
        rw [h₁.cErr]
        simp
      exact ((asyncDisconnect_torn h₁.serving.plain hclean₁ h₁.serving.idle (Or.inl herr)).imp
        And.left).mono fun ac₂ _ h₂ ↦ ⟨h₂.over h₁.serving.ledger h₁.serving.no_teardown,
          h₂.processed_eq.trans h₁.processed_eq⟩
  | connected =>
      have hnotify := (notifyConnect_ready
        (hserving ac.cErr { ac.flags with connected := true } rfl rfl rfl) hclean .ok
        commands).imp (And.right : OrdinaryScript script ∧ OrdinaryCommands commands → _)
      exact hnotify.map (fun _ ↦ rfl) fun ac₁ _ h₁ ↦
        ⟨h₁.serving, h₁.processed_eq, h₁.accepted_le⟩

theorem whenConnected_ends {ac : AsyncContext} (hs : ac.Serving) (hclean : Clean .enterMode ac)
    (check : SocketCheck) (commands : List (Option ℕ × ℕ × List UInt8))
    {handle : AsyncContext → Option AsyncContext} {replies : List ReplyTree}
    (hgrows : Extends handle)
    (hhandle : ∀ ac₁ : AsyncContext, Clean .enterMode ac₁ → ac₁.Serving →
      processed ac₁.trace = processed ac.trace →
      (accepted ac.trace).length ≤ (accepted ac₁.trace).length →
      Ends .enterMode (OrdinaryScript script) (handle ac₁) (Took replies ac₁)) :
    Ends .enterMode (OrdinaryScript script ∧ OrdinaryCommands commands)
      (ac.whenConnected script check commands handle) (Took replies ac) := by
  unfold whenConnected
  split
  · exact (hhandle ac hclean hs rfl le_rfl).imp And.left
  · refine (asyncHandleConnect_ends hs hclean check commands).bind
      (afterConnect_extends hgrows) ?_
    rintro ⟨status, ac₁⟩ hclean₁ h₁
    cases status with
    | err => exact .pure hclean₁ (.none (Or.inr h₁.1) h₁.2)
    | ok =>
        obtain ⟨hs₁, hproc, hacc⟩ := h₁
        simp only
        split
        · refine ((hhandle ac₁ hclean₁ hs₁ hproc hacc).imp And.left).mono fun ac₂ _ h ↦ ?_
          exact ⟨h.state, hproc ▸ h.taken⟩
        · exact .pure hclean₁ (.none (Or.inl hs₁) hproc)

end Script

end AsyncContext

/-! ## Whole lives -/

/-- What can happen to a context between two turns of the event loop, and in one:
a call from outside, and the two socket events. -/
inductive AsyncInput where
  | call (c : ApiCall)
  | readable (check : SocketCheck) (commands : List (Option ℕ × ℕ × List UInt8))
      (data : Except RedisErr (List ReplyTree × Option RedisErr))
  | writable (check : SocketCheck) (commands : List (Option ℕ × ℕ × List UInt8))
      (written : Except RedisErr ℕ)

/-- No command of the input enters a mode. -/
def AsyncInput.Ordinary : AsyncInput → Prop
  | .call c => c.Ordinary
  | .readable _ commands _ => AsyncContext.OrdinaryCommands commands
  | .writable _ commands _ => AsyncContext.OrdinaryCommands commands

/-- The replies that are there to be read. -/
def AsyncInput.replies : AsyncInput → List ReplyTree
  | .readable _ _ (.ok (replies, _)) => replies
  | _ => []

namespace AsyncContext

/-- The server's replies are `answer 0`, `answer 1` and so on, one for each
command: those that arrive are the next ones, and their commands were
accepted. -/
structure Deliverable (answer : ℕ → ReplyTree) (ac : AsyncContext) (input : AsyncInput) :
    Prop where
  in_order : ∀ i r, input.replies[i]? = some r → r = answer ((processed ac.trace).length + i)
  commanded : (processed ac.trace).length + input.replies.length ≤ (accepted ac.trace).length

def react (script : ℕ → List ApiCall) (input : AsyncInput) (ac : AsyncContext) :
    Option AsyncContext :=
  match input with
  | .call c => ac.perform script c
  | .readable check commands data => ac.redisAsyncHandleRead script check commands data
  | .writable check commands written => ac.redisAsyncHandleWrite script check commands written

/-- The states of a context, until it is freed. -/
inductive Reachable (script : ℕ → List ApiCall) (answer : ℕ → ReplyTree) : AsyncContext → Prop
  | start (cErr : Option RedisErr) (onConnect onDisconnect : Bool) :
      Reachable script answer (redisAsyncInitialize cErr onConnect onDisconnect)
  | step {ac ac' : AsyncContext} {input : AsyncInput} :
      Reachable script answer ac → ac.freed = false → Deliverable answer ac input →
      ac.react script input = some ac' → Reachable script answer ac'

/-- The callbacks of accepted commands were run once each, in order: those of
the processed replies with these, and after teardown the others with `NULL`.
Teardown began at most once, nothing was accepted or processed after that, and
`NULL` was given to a callback only then. -/
structure ExactlyOnce (answer : ℕ → ReplyTree) (ac : AsyncContext) : Prop where
  replies_eq : ∀ k r, (processed ac.trace)[k]? = some r → r = answer k
  in_order : (processed ac.trace).length ≤ (accepted ac.trace).length
  answered : invocations ac.trace = answers (accepted ac.trace)
    ((processed ac.trace).map some ++ List.replicate
      (if ac.freed then (accepted ac.trace).length - (processed ac.trace).length else 0) none)
  teardown_last : ∀ before after, ac.trace = before ++ .teardown :: after →
    ac.freed = true ∧ .teardown ∉ before ∧ .teardown ∉ after ∧ accepted after = [] ∧
      processed after = [] ∧ (∀ i ∈ invocations before, i.2.2 ≠ none) ∧
      ∀ i ∈ invocations after, i.2.2 = none

section Script

variable {script : ℕ → List ApiCall}

theorem perform_ends {ac : AsyncContext} (hs : ac.Serving) (hclean : Clean .enterMode ac)
    (call : ApiCall) :
    Ends .enterMode (OrdinaryScript script ∧ call.Ordinary) (ac.perform script call)
      (Took [] ac) := by
  have hplain : ∀ flags : Flags, flags.subscribed = ac.flags.subscribed →
      flags.monitoring = ac.flags.monitoring →
      ({ ac with flags := flags } : AsyncContext).Plain := fun flags hsub hmon ↦
    ⟨hsub.trans hs.plain.1, hmon.trans hs.plain.2, hs.plain.3, hs.plain.4, hs.plain.5⟩
  cases call with
  | command fn privdata cmd =>
      exact ((asyncCommand_ready (.refl hs) hclean fn privdata cmd).imp And.right).mono
        fun ac' _ h ↦ .none (Or.inl h.serving) h.processed_eq
  | disconnect =>
      simp only [perform, performWith, disconnectWith]
      split
      · rename_i hidle
        exact ((asyncDisconnect_torn (hplain { ac.flags with disconnecting := true } rfl rfl)
          hclean hidle.1 (Or.inr hidle.2)).imp And.left).mono fun _ _ h ↦
            (Torn.congr ac h rfl rfl).took hs.ledger hs.no_teardown
      · exact .pure hclean (.none (Or.inl ⟨hs.ledger, hs.no_teardown, hplain _ rfl rfl, hs.idle,
          hs.live⟩) rfl)
  | free =>
      simp only [perform, performWith, freeWith]
      rw [if_neg (by simp [hs.idle])]
      exact ((asyncFree_torn (hplain { ac.flags with freeing := true } rfl rfl) hclean hs.idle
        (Or.inl (by simp [Flags.closing]))).imp And.left).mono fun _ _ h ↦
          (Torn.congr ac h rfl rfl).took hs.ledger hs.no_teardown

/-- A context that has seen an error is disconnected. -/
theorem disconnect_ends {ac : AsyncContext} (hs : ac.Serving) (hclean : Clean .enterMode ac)
    {cErr : Option RedisErr} (herr : cErr ≠ none) {replies : List ReplyTree} :
    Ends .enterMode (OrdinaryScript script)
      (({ ac with cErr := cErr } : AsyncContext).asyncDisconnect script) (Took replies ac) :=
  have hplain : ({ ac with cErr := cErr } : AsyncContext).Plain :=
    ⟨hs.plain.1, hs.plain.2, hs.plain.3, hs.plain.4, hs.plain.5⟩
  (asyncDisconnect_torn hplain hclean hs.idle
    (Or.inl herr)).mono fun _ _ h ↦ (Torn.congr ac h rfl rfl).took hs.ledger hs.no_teardown

theorem react_ends {ac : AsyncContext} (hs : ac.Serving) (hclean : Clean .enterMode ac)
    {answer : ℕ → ReplyTree} {input : AsyncInput} (hdel : Deliverable answer ac input) :
    Ends .enterMode (OrdinaryScript script ∧ input.Ordinary) (ac.react script input)
      (Took input.replies ac) := by
  cases input with
  | call c => exact perform_ends hs hclean c
  | readable check commands data =>
      refine whenConnected_ends hs hclean check commands (readConnected_extends script data) ?_
      intro ac₁ hclean₁ hs₁ hproc hacc
      unfold readConnected
      split
      · rename_i herr
        exact disconnect_ends hs₁ hclean₁ herr
      · split
        · exact disconnect_ends hs₁ hclean₁ (by simp)
        · refine processReplies_ends hs₁ hclean₁ _ _ _ ?_
          rw [hproc]
          exact le_trans hdel.commanded hacc
  | writable check commands written =>
      refine whenConnected_ends hs hclean check commands (writeConnected_extends script written)
        ?_
      intro ac₁ hclean₁ hs₁ _ _
      unfold writeConnected
      split
      · rename_i herr
        exact disconnect_ends hs₁ hclean₁ herr
      · split
        · exact disconnect_ends hs₁ hclean₁ (by simp)
        · exact .pure hclean₁ (.none (Or.inl ⟨hs₁.ledger, hs₁.no_teardown,
            ⟨hs₁.plain.1, hs₁.plain.2, hs₁.plain.3, hs₁.plain.4, hs₁.plain.5⟩, hs₁.idle,
            hs₁.live⟩) rfl)

theorem react_extends (input : AsyncInput) : Extends (react script input) := by
  cases input with
  | call c =>
      exact performWith_extends (asyncFree_extends script) (asyncDisconnect_extends script) c
  | readable check commands data =>
      exact whenConnected_extends script (readConnected_extends script data) check commands
  | writable check commands written =>
      exact whenConnected_extends script (writeConnected_extends script written) check commands

theorem mem_invocations {τ : List Event} {i : Invocation} :
    i ∈ invocations τ ↔ Event.run i.1 i.2.1 i.2.2 ∈ τ := by
  simp only [invocations, List.mem_filterMap]
  constructor
  · rintro ⟨e, he, hi⟩
    cases e with
    | run fn privdata reply =>
        cases hi
        exact he
    | _ => simp at hi
  · exact fun h ↦ ⟨_, h, rfl⟩

theorem reply_of_mem_answers {cbs : List RedisCallback} {rs : List (Option ReplyTree)}
    {i : Invocation} (h : i ∈ answers cbs rs) : i.2.2 ∈ rs := by
  obtain ⟨p, hp, hi⟩ := List.mem_filterMap.mp h
  obtain ⟨fn, -, rfl⟩ := Option.map_eq_some_iff.mp hi
  exact (List.of_mem_zip hp).2

theorem Serving.onceEach {ac : AsyncContext} (hs : ac.Serving) {answer : ℕ → ReplyTree}
    (hreplies : ∀ k r, (processed ac.trace)[k]? = some r → r = answer k) :
    ExactlyOnce answer ac := by
  refine ⟨hreplies, by simpa using hs.ledger.count, ?_, ?_⟩
  · rw [hs.live]
    exact hs.ledger.served
  · intro before after h
    exact (hs.no_teardown (by simp [h])).elim

theorem teardown_events {pending : List RedisCallback} {tail : List Event}
    (hkind : tail = [] ∨ ∃ status, tail = [.onDisconnect status]) {e : Event}
    (h : e ∈ pending.flatMap (runEvents · none) ++ tail) :
    (∃ fn privdata, e = .run fn privdata none) ∨ ∃ status, e = .onDisconnect status := by
  rcases List.mem_append.mp h with h | h
  · obtain ⟨cb, -, he⟩ := List.mem_flatMap.mp h
    left
    unfold runEvents at he
    cases hfn : cb.fn with
    | none => simp [hfn] at he
    | some fn =>
        rw [hfn] at he
        exact ⟨fn, cb.privdata, by simpa using he⟩
  · rcases hkind with rfl | ⟨status, rfl⟩
    · simp at h
    · exact Or.inr ⟨status, by simpa using h⟩

theorem Over.onceEach {ac : AsyncContext} (ho : ac.Over) {answer : ℕ → ReplyTree}
    (hreplies : ∀ k r, (processed ac.trace)[k]? = some r → r = answer k) :
    ExactlyOnce answer ac := by
  obtain ⟨hfreed, before, pending, tail, hledger, hno, htrace, hkind⟩ := ho
  have hevents : ∀ e ∈ pending.flatMap (runEvents · none) ++ tail,
      (∃ fn privdata, e = .run fn privdata none) ∨ ∃ status, e = .onDisconnect status :=
    fun e he ↦ teardown_events hkind he
  have hno' : .teardown ∉ pending.flatMap (runEvents · none) ++ tail := by
    intro h
    rcases hevents _ h with ⟨fn, privdata, he⟩ | ⟨status, he⟩ <;> cases he
  have hfinal : Ledger ac.trace [] pending.length := by
    have hdrained := (hledger.note (e := .teardown) rfl rfl rfl).drainAll
    rw [Nat.zero_add] at hdrained
    rw [htrace, ← List.singleton_append, ← List.append_assoc, ← List.append_assoc]
    rcases hkind with rfl | ⟨status, rfl⟩
    · rwa [List.append_nil]
    · exact hdrained.note rfl rfl rfl
  have hlen := hfinal.length
  rw [List.length_nil] at hlen
  refine ⟨hreplies, by omega, ?_, ?_⟩
  · rw [hfreed, if_pos rfl]
    have hk : (accepted ac.trace).length - (processed ac.trace).length = pending.length := by
      omega
    rw [hk]
    exact hfinal.served
  · intro before' after h
    rw [htrace] at h
    obtain ⟨rfl, -, rfl⟩ := (List.append_cons_inj_of_notMem hno hno').mp h
    refine ⟨hfreed, hno, hno', ?_, ?_, ?_, ?_⟩
    · rw [accepted, List.filterMap_eq_nil_iff]
      intro e he
      rcases hevents e he with ⟨fn, privdata, rfl⟩ | ⟨status, rfl⟩ <;> rfl
    · rw [processed, List.filterMap_eq_nil_iff]
      intro e he
      rcases hevents e he with ⟨fn, privdata, rfl⟩ | ⟨status, rfl⟩ <;> rfl
    · intro i hi
      rw [hledger.served] at hi
      have hmem := reply_of_mem_answers hi
      rintro hnone
      simp [hnone] at hmem
    · intro i hi
      rcases hevents _ (mem_invocations.mp hi) with ⟨fn, privdata, he⟩ | ⟨status, he⟩
      · exact (Event.run.inj he).2.2
      · cases he

/-- What holds of every context that never entered a mode. -/
theorem Reachable.serving_or_over {answer : ℕ → ReplyTree} {ac : AsyncContext}
    (h : Reachable script answer ac) (hclean : Clean .enterMode ac) :
    (ac.Serving ∨ ac.Over) ∧ ∀ k r, (processed ac.trace)[k]? = some r → r = answer k := by
  induction h with
  | start cErr onConnect onDisconnect =>
      refine ⟨Or.inl ⟨.nil, by simp [redisAsyncInitialize], ⟨rfl, rfl, rfl, rfl, rfl⟩, rfl, rfl⟩,
        by simp [redisAsyncInitialize, processed]⟩
  | @step ac ac' input _ hlive hdel hreact ih =>
      have hclean' : Clean .enterMode ac := fun hmem ↦
        hclean ((react_extends input ac ac' hreact).subset hmem)
      obtain ⟨hstate, hreplies⟩ := ih hclean'
      have hs : ac.Serving := hstate.resolve_right fun ho ↦ by
        have hfreed := ho.freed
        simp [hlive] at hfreed
      obtain ⟨hstate', taken, hinit, htaken⟩ :=
        (react_ends hs hclean' hdel).sound ac' hreact hclean
      refine ⟨hstate', fun k r hk ↦ ?_⟩
      rw [htaken] at hk
      rcases Nat.lt_or_ge k (processed ac.trace).length with hlt | hge
      · rw [List.getElem?_append_left hlt] at hk
        exact hreplies k r hk
      · rw [List.getElem?_append_right hge] at hk
        obtain ⟨hlt, rfl⟩ := List.getElem?_eq_some_iff.mp hk
        have hnext := hdel.in_order _ _ (List.prefix_iff_getElem?.mp hinit _ hlt)
        rwa [Nat.add_sub_cancel' hge] at hnext

/-- A context that never entered a mode has run each callback once, with the
reply to its command, or with `NULL` during its only teardown.  And as long as no
command enters a mode, whatever happens to the context is carried out, without
an assertion failing. -/
theorem Reachable.exactlyOnce {answer : ℕ → ReplyTree} {ac : AsyncContext}
    (h : Reachable script answer ac) (hmode : .enterMode ∉ ac.trace) :
    ExactlyOnce answer ac ∧
      ∀ input, ac.freed = false → Deliverable answer ac input → OrdinaryScript script →
        input.Ordinary → ∃ ac', ac.react script input = some ac' ∧ .enterMode ∉ ac'.trace := by
  obtain ⟨hstate, hreplies⟩ := h.serving_or_over hmode
  refine ⟨?_, fun input hlive hdel hscript hinput ↦ ?_⟩
  · rcases hstate with hs | ho
    · exact hs.onceEach hreplies
    · exact ho.onceEach hreplies
  · have hs : ac.Serving := hstate.resolve_right fun ho ↦ by
      have hfreed := ho.freed
      simp [hlive] at hfreed
    exact (react_ends hs hmode hdel).total ⟨hscript, hinput⟩

end Script

/-- The first callback frees the context, and the second is run with `NULL`. -/
theorem exactlyOnce_freed_in_callback :
    ∃ ac : AsyncContext, invocations ac.trace = [(1, 0, some (.status [79, 75])), (2, 0, none)] ∧
      ExactlyOnce (fun _ ↦ .status [79, 75]) ac := by
  let script : ℕ → List ApiCall := fun n ↦ if n = 0 then [.free] else []
  let ping : List UInt8 := [42, 49, 13, 10, 36, 52, 13, 10, 80, 73, 78, 71, 13, 10]
  let answer : ℕ → ReplyTree := fun _ ↦ .status [79, 75]
  have hstart : Reachable script answer (redisAsyncInitialize none false false) := .start _ _ _
  have hfirst : Reachable script answer _ :=
    @Reachable.step _ _ _ _ (.call (.command (some 1) 0 ping)) hstart rfl
      ⟨by simp [AsyncInput.replies],
      by decide⟩ rfl
  have hsecond : Reachable script answer _ :=
    @Reachable.step _ _ _ _ (.call (.command (some 2) 0 ping)) hfirst rfl
      ⟨by simp [AsyncInput.replies],
      by decide⟩ rfl
  have hthird : Reachable script answer _ :=
    @Reachable.step _ _ _ _ (.readable .connected [] (.ok ([.status [79, 75]], none))) hsecond rfl
      ⟨fun i r h ↦ by
        cases i with
        | zero => exact (Option.some.inj h).symm
        | succ i => simp [AsyncInput.replies] at h, by decide⟩ rfl
  have hmode : Event.enterMode ∉ [.accept ⟨some 1, 0⟩, .accept ⟨some 2, 0⟩,
      .reply (.status [79, 75]), .run 1 0 (some (.status [79, 75])), .teardown,
      .run 2 0 none] := by simp
  exact ⟨_, rfl, (hthird.exactlyOnce hmode).1⟩

end AsyncContext

end MuxHiredis
