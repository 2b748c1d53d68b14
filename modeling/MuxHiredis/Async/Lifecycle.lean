import MuxHiredis.Async.ExactlyOnce
import MuxHiredis.Async.Teardown
import MuxHiredis.Lib.Grammar

/-!
# From the connect callback to the disconnect callback

The connect check, teardown and the disconnect callback follow one grammar,
however the events, the calls and the callbacks come: connected or refused at
most once, disconnected only after that, and nothing after the disconnect
callback.
-/

namespace MuxHiredis

/-! ## The grammar -/

/-- Neither of the two callbacks was run; the connect callback was run with
`REDIS_OK`, or with `REDIS_ERR`; the disconnect callback was run. -/
inductive Phase where
  | opening | up | refused | closed
  deriving DecidableEq, Repr

def Phase.next : Phase → Event → Option Phase
  | .closed, _ => none
  | .opening, .onConnect .ok => some .up
  | .opening, .onConnect .err => some .refused
  | _, .onConnect _ => none
  | .up, .onDisconnect _ => some .closed
  | _, .onDisconnect _ => none
  | p, _ => some p

def lifeGrammar : Grammar Event Phase := ⟨Phase.next⟩

theorem Phase.next_of_quiet {p : Phase} (hp : p ≠ .closed) {e : Event} (he : e.Quiet) :
    lifeGrammar.next p e = some p := by
  obtain ⟨hconnect, hdisconnect⟩ := he
  cases e <;> cases p <;> simp_all [lifeGrammar, Phase.next, Event.isOnConnect,
    Event.isOnDisconnect]

theorem closed_final : lifeGrammar.Final .closed := fun _ ↦ rfl

theorem Phase.next_cases {p q : Phase} {e : Event} (h : lifeGrammar.next p e = some q) :
    (p = .opening ∧ e = .onConnect .ok ∧ q = .up) ∨
      (p = .opening ∧ e = .onConnect .err ∧ q = .refused) ∨
      (∃ status, p = .up ∧ e = .onDisconnect status ∧ q = .closed) ∨
      p ≠ .closed ∧ e.Quiet ∧ q = p := by
  cases p <;> cases e with
  | onConnect status => cases status <;> cases h <;> simp
  | _ => cases h <;> simp [Event.Quiet, Event.isOnConnect, Event.isOnDisconnect]

section Grammar

variable {τ : List Event} {p : Phase}

theorem countP_isOnConnect_le (h : lifeGrammar.after .opening τ = some p) :
    τ.countP Event.isOnConnect ≤ 1 := by
  have hstep : ∀ p e q, lifeGrammar.next p e = some q →
      (if e.isOnConnect then 1 else 0) + (if q = .opening then 1 else 0) ≤
        if p = .opening then 1 else 0 := by
    intro p e q hnext
    rcases Phase.next_cases hnext with
      ⟨rfl, rfl, rfl⟩ | ⟨rfl, rfl, rfl⟩ | ⟨status, rfl, rfl, rfl⟩ | ⟨-, he, rfl⟩
    · decide
    · decide
    · simp [Event.isOnConnect]
    · simp [he.1]
  have hcount := Grammar.countP_add_le hstep h
  rw [if_pos rfl] at hcount
  omega

theorem countP_isOnDisconnect_le (h : lifeGrammar.after .opening τ = some p) :
    τ.countP Event.isOnDisconnect ≤ 1 := by
  have hstep : ∀ p e q, lifeGrammar.next p e = some q →
      (if e.isOnDisconnect then 1 else 0) + (if q = .closed then 0 else 1) ≤
        if p = .closed then 0 else 1 := by
    intro p e q hnext
    rcases Phase.next_cases hnext with
      ⟨rfl, rfl, rfl⟩ | ⟨rfl, rfl, rfl⟩ | ⟨status, rfl, rfl, rfl⟩ | ⟨-, he, rfl⟩
    · decide
    · decide
    · simp [Event.isOnDisconnect]
    · simp [he.2]
  have hcount := Grammar.countP_add_le hstep h
  rw [if_neg (show Phase.opening ≠ .closed by decide)] at hcount
  omega

theorem mem_onConnect_ok_iff (h : lifeGrammar.after .opening τ = some p) :
    .onConnect .ok ∈ τ ↔ p = .up ∨ p = .closed := by
  have hstep : ∀ p e q, lifeGrammar.next p e = some q →
      ((q = .up ∨ q = .closed) ↔ (p = .up ∨ p = .closed) ∨ e = .onConnect .ok) := by
    intro p e q hnext
    rcases Phase.next_cases hnext with
      ⟨rfl, rfl, rfl⟩ | ⟨rfl, rfl, rfl⟩ | ⟨status, rfl, rfl, rfl⟩ | ⟨-, he, rfl⟩
    · simp
    · simp
    · simp
    · have hne : e ≠ .onConnect .ok := by
        rintro rfl
        simp [Event.Quiet, Event.isOnConnect] at he
      simp [hne]
  rw [Grammar.seen_iff hstep h]
  simp

theorem exists_onDisconnect_iff (h : lifeGrammar.after .opening τ = some p) :
    (∃ status, .onDisconnect status ∈ τ) ↔ p = .closed := by
  have hstep : ∀ p e q, lifeGrammar.next p e = some q →
      (q = .closed ↔ p = .closed ∨ ∃ status, e = .onDisconnect status) := by
    intro p e q hnext
    rcases Phase.next_cases hnext with
      ⟨rfl, rfl, rfl⟩ | ⟨rfl, rfl, rfl⟩ | ⟨status, rfl, rfl, rfl⟩ | ⟨-, he, rfl⟩
    · simp
    · simp
    · simp
    · have hne : ¬∃ status, e = .onDisconnect status := by
        rintro ⟨status, rfl⟩
        simp [Event.Quiet, Event.isOnDisconnect] at he
      simp [hne]
  rw [Grammar.seen_iff hstep h]
  constructor
  · rintro ⟨status, hmem⟩
    exact Or.inr ⟨_, hmem, status, rfl⟩
  · rintro (hp | ⟨e, hmem, status, rfl⟩)
    · cases hp
    · exact ⟨status, hmem⟩

theorem onDisconnect_last (h : lifeGrammar.after .opening τ = some p) {before after : List Event}
    {status : Status} (hτ : τ = before ++ .onDisconnect status :: after) : after = [] := by
  rw [hτ, Grammar.after_append] at h
  obtain ⟨q, -, hq⟩ := Option.bind_eq_some_iff.mp h
  obtain ⟨q', hnext, hrest⟩ := Option.bind_eq_some_iff.mp hq
  have hclosed : q' = .closed := by
    cases q <;> cases hnext
    rfl
  subst hclosed
  exact closed_final.eq_nil hrest

end Grammar

namespace AsyncContext

/-! ## Open and ended -/

/-- A context with both callbacks that was not torn down, in a phase of its
life. -/
structure Open (p : Phase) (ac : AsyncContext) : Prop where
  freed : ac.freed = false
  idle : ac.flags.inCallback = false
  onConnect : ac.onConnect = true
  onDisconnect : ac.onDisconnect = true
  phase : lifeGrammar.after .opening ac.trace = some p
  connected : ac.flags.connected = true ↔ p = .up
  not_closed : p ≠ .closed

/-- A context that was torn down. -/
structure Ended (ac : AsyncContext) : Prop where
  freed : ac.freed = true
  closing : ac.flags.closing = true
  phase : ∃ p, lifeGrammar.after .opening ac.trace = some p ∧ p ≠ .up
  settled : Settled ac ac.trace

theorem Open.undisturbed {p : Phase} {ac ac' : AsyncContext} (h : Open p ac)
    (hu : Undisturbed ac ac') : Open p ac' := by
  obtain ⟨es, htrace, hes⟩ := hu.events
  refine ⟨(congrArg Standing.freed hu.standing).trans h.freed, hu.idle h.idle,
    (congrArg Standing.onConnect hu.standing).trans h.onConnect,
    (congrArg Standing.onDisconnect hu.standing).trans h.onDisconnect, ?_, ?_, h.not_closed⟩
  · rw [htrace]
    exact lifeGrammar.after_append_of_quiet h.phase fun e he ↦
      Phase.next_of_quiet h.not_closed (hes e he)
  · rw [show ac'.flags.connected = ac.flags.connected from
      congrArg Standing.connected hu.standing]
    exact h.connected

/-- An open context goes on undisturbed, or it is torn down. -/
def Goes (ac ac' : AsyncContext) : Prop := Undisturbed ac ac' ∨ Ended ac'

section Script

variable {script : ℕ → List ApiCall}

/-- Teardown runs the disconnect callback when the connect callback was run with
`REDIS_OK`. -/
theorem Open.asyncFree {p : Phase} {ac ac' : AsyncContext} (h : Open p ac)
    (hclosing : ac.flags.closing = true) (hfree : ac.asyncFree script = some ac') : Ended ac' := by
  obtain ⟨ac₁, hdrain, hend⟩ := Option.bind_eq_some_iff.mp hfree
  obtain ⟨ac₂, hsubs, rfl⟩ := Option.map_eq_some_iff.mp hend
  have hu₁ : Undisturbed ac ac₁ := (Undisturbed.record ac ⟨rfl, rfl⟩).trans
    (drainFor_undisturbed script shiftReplies_undisturbed _ (ac.record .teardown) ac₁ hdrain)
  have hu₂ : Undisturbed ac ac₂ :=
    hu₁.trans (endSubscriptions_undisturbed script ac₁ ac₂ hsubs)
  have hreplies : ac₁.replies = [] :=
    (drainReplies_empties script (show (ac.record .teardown).flags.closing = true from hclosing)
      hdrain).1
  have hopen := h.undisturbed hu₂
  have hsettled := endSubscriptions_settled script (hu₁.closing hclosing) hreplies hsubs
  by_cases hconnected : ac₂.flags.connected = true
  · have hp : p = .up := hopen.connected.mp hconnected
    have hnotify : ac₂.notifyDisconnect = ac₂.record
        (.onDisconnect (if ac₂.flags.freeing ∨ ac₂.err = none then .ok else .err)) :=
      if_pos ⟨hopen.onDisconnect, hconnected⟩
    rw [hnotify]
    refine ⟨rfl, hu₂.closing hclosing, ⟨.closed, ?_, by decide⟩, hsettled.1, hsettled.2, ?_⟩
    · show lifeGrammar.after .opening (ac₂.trace ++ [_]) = some .closed
      rw [Grammar.after_append, hopen.phase, hp]
      rfl
    · intro pattern name cb fn hlookup hfn
      exact List.mem_append_left _ (hsettled.3 pattern name cb fn hlookup hfn)
  · have hnotify : ac₂.notifyDisconnect = ac₂ := if_neg fun hc ↦ hconnected hc.2
    rw [hnotify]
    have hnot : p ≠ .up := fun hp ↦ hconnected (hopen.connected.mpr hp)
    exact ⟨rfl, hu₂.closing hclosing, ⟨p, hopen.phase, hnot⟩, hsettled.1, hsettled.2, hsettled.3⟩

/-- What `__redisAsyncDisconnect` changes before teardown. -/
theorem Open.asyncDisconnect {p : Phase} {ac ac' : AsyncContext} (h : Open p ac)
    (hwhy : ac.flags.disconnecting = true ∨ ac.cErr ≠ none)
    (hdisconnect : ac.asyncDisconnect script = some ac') : Ended ac' := by
  simp only [AsyncContext.asyncDisconnect] at hdisconnect
  split at hdisconnect
  · rename_i herr
    have hflag : ac.flags.disconnecting = true := hwhy.resolve_right fun hne ↦ hne herr
    split at hdisconnect
    · have hopen : Open p { ac with err := ac.cErr } := ⟨h.1, h.2, h.3, h.4, h.5, h.6, h.7⟩
      exact hopen.asyncFree (by simp [Flags.closing, hflag]) hdisconnect
    · simp at hdisconnect
  · have hopen : Open p { ac with
        err := ac.cErr
        flags := { ac.flags with disconnecting := true } } := ⟨h.1, h.2, h.3, h.4, h.5, h.6, h.7⟩
    exact hopen.asyncFree rfl hdisconnect

theorem Open.fail {p : Phase} {ac ac' : AsyncContext} (h : Open p ac) (e : RedisErr)
    (hdisconnect : ({ ac with cErr := some e } : AsyncContext).asyncDisconnect script = some ac') :
    Ended ac' := by
  have hopen : Open p { ac with cErr := some e } := ⟨h.1, h.2, h.3, h.4, h.5, h.6, h.7⟩
  exact hopen.asyncDisconnect (Or.inr (Option.some_ne_none e)) hdisconnect

/-- Calls from outside of any callback. -/
theorem Open.perform {p : Phase} {ac ac' : AsyncContext} (h : Open p ac) (call : ApiCall)
    (hperform : ac.perform script call = some ac') : Goes ac ac' := by
  cases call with
  | command fn privdata cmd =>
      obtain ⟨q, hq, rfl⟩ := Option.map_eq_some_iff.mp hperform
      exact Or.inl (asyncCommand_inside hq).toUndisturbed
  | disconnect =>
      have hraised := raise_inside ac (Or.inl rfl)
      simp only [AsyncContext.perform, performWith, disconnectWith] at hperform
      split at hperform
      · exact Or.inr ((h.undisturbed hraised.toUndisturbed).asyncDisconnect (Or.inl rfl) hperform)
      · exact Or.inl (Option.some.inj hperform ▸ hraised.toUndisturbed)
  | free =>
      have hraised := raise_inside ac (Or.inr rfl)
      simp only [AsyncContext.perform, performWith, freeWith] at hperform
      rw [if_neg (by simp [h.idle])] at hperform
      refine Or.inr ((h.undisturbed hraised.toUndisturbed).asyncFree ?_ hperform)
      simp [Flags.closing]

/-! ## Replies -/

theorem unsubscribed_undisturbed (ac : AsyncContext) (pattern : Bool) (name : List UInt8)
    (remaining : ℤ) : Undisturbed ac (ac.unsubscribed pattern name remaining) := by
  unfold unsubscribed
  split <;> split <;> exact ⟨⟨[], by simp, by simp⟩, rfl, id, id⟩

theorem pickCallback_undisturbed {ac ac' : AsyncContext} {reply : ReplyTree}
    {cb cb' : RedisCallback} (h : ac.pickCallback cb reply = some (.run cb' ac')) :
    Undisturbed ac ac' := by
  unfold pickCallback at h
  split at h
  · rename_i hs
    cases h
    exact shiftReplies_undisturbed hs
  · split at h
    · simp at h
    · split at h
      · obtain ⟨q, hq, hrun⟩ := Option.map_eq_some_iff.mp h
        cases hrun
        rcases getSubscribeCallback_cases hq with
          ⟨-, hac⟩ | ⟨pattern, name, -, hac | ⟨n, hac⟩⟩ | hs
        · exact hac ▸ .refl ac
        · exact hac ▸ .refl ac
        · exact hac ▸ unsubscribed_undisturbed ac pattern name n
        · exact shiftInvalid_undisturbed hs
      · split at h
        · cases h
          exact .refl ac
        · simp at h

/-- A turn of the loop, which goes on or ends with the context. -/
theorem Open.processReply {p : Phase} {ac : AsyncContext} (h : Open p ac) {cb : RedisCallback}
    {reply : ReplyTree} {q : Processed} (hq : ac.processReply script cb reply = some q) :
    match q with
    | .next _ ac' => Undisturbed ac ac'
    | .done ac' => Ended ac' := by
  have hrec : Undisturbed ac (ac.record (.reply reply)) := .record ac ⟨rfl, rfl⟩
  simp only [AsyncContext.processReply] at hq
  split at hq
  · simp at hq
  · rename_i hpick
    obtain ⟨ac', hdisconnect, rfl⟩ := Option.map_eq_some_iff.mp hq
    rw [pickCallback_disconnect hpick] at hdisconnect
    exact (h.undisturbed hrec).fail .other hdisconnect
  · rename_i cb' ac₁ hpick
    have hu₁ := hrec.trans (pickCallback_undisturbed hpick)
    split at hq
    · exact Option.some.inj hq ▸ hu₁
    · obtain ⟨ac₂, hrun, hrest⟩ := Option.bind_eq_some_iff.mp hq
      have hu₂ := hu₁.trans (runCallback_inside script cb' (some reply) ac₁ ac₂ hrun).toUndisturbed
      split at hrest
      · rename_i hfreeing
        obtain ⟨ac', hfree, rfl⟩ := Option.map_eq_some_iff.mp hrest
        exact (h.undisturbed hu₂).asyncFree (by simp [Flags.closing, hfreeing]) hfree
      · exact Option.some.inj hrest ▸ hu₂

theorem Open.endOfReplies {p : Phase} {ac ac' : AsyncContext} (h : Open p ac)
    {failed : Option RedisErr} {cb : RedisCallback}
    (hend : ac.endOfReplies script failed cb = some ac') : Goes ac ac' := by
  cases failed with
  | some e => exact Or.inr (h.fail e hend)
  | none =>
      simp only [AsyncContext.endOfReplies] at hend
      split at hend
      · rename_i hcue
        exact Or.inr (h.asyncDisconnect (Or.inl hcue.1) hend)
      · left
        split at hend
        · exact Option.some.inj hend ▸ ⟨⟨[], by simp, by simp⟩, rfl, id, id⟩
        · exact Option.some.inj hend ▸ .refl ac

theorem Open.processReplies {p : Phase} {ac ac' : AsyncContext} (h : Open p ac)
    {replies : List ReplyTree} {failed : Option RedisErr} {cb : RedisCallback}
    (hreplies : ac.processReplies script replies failed cb = some ac') : Goes ac ac' := by
  induction replies generalizing ac cb with
  | nil => exact h.endOfReplies hreplies
  | cons reply rest ih =>
      obtain ⟨q, hq, hrest⟩ := Option.bind_eq_some_iff.mp hreplies
      have hturn := h.processReply hq
      cases q with
      | next cb' ac₁ =>
          exact (ih (h.undisturbed hturn) hrest).imp_left hturn.trans
      | done ac₁ =>
          exact Or.inr (Option.some.inj hrest ▸ hturn)

theorem Open.readConnected {p : Phase} {ac ac' : AsyncContext} (h : Open p ac)
    {data : Except RedisErr (List ReplyTree × Option RedisErr)}
    (hread : ac.readConnected script data = some ac') : Goes ac ac' := by
  unfold AsyncContext.readConnected at hread
  split at hread
  · rename_i herr
    exact Or.inr (h.asyncDisconnect (Or.inr herr) hread)
  · split at hread
    · exact Or.inr (h.fail _ hread)
    · exact h.processReplies hread

theorem Open.writeConnected {p : Phase} {ac ac' : AsyncContext} (h : Open p ac)
    {written : Except RedisErr ℕ} (hwrite : ac.writeConnected script written = some ac') :
    Goes ac ac' := by
  unfold AsyncContext.writeConnected at hwrite
  split at hwrite
  · rename_i herr
    exact Or.inr (h.asyncDisconnect (Or.inr herr) hwrite)
  · split at hwrite
    · exact Or.inr (h.fail _ hwrite)
    · exact Or.inl (Option.some.inj hwrite ▸
        ⟨⟨[], by simp, by simp⟩, rfl, id, id⟩)

end Script

/-! ## Connecting -/

section Script

variable (script : ℕ → List ApiCall)

/-- What the connect callback calls.  `__redisAsyncHandleConnect` goes on with the
context, so there is no result when one of the calls frees it. -/
def connectCalls (calls : List ApiCall) (ac : AsyncContext) : Option AsyncContext :=
  calls.foldlM (fun ac call ↦ (ac.perform script call).filter fun ac ↦ !ac.freed) ac

/-- The call of the connect callback, which may call the whole interface. -/
def notifyConnectWith (status : Status) (calls : List ApiCall) (ac : AsyncContext) :
    Option AsyncContext :=
  if ac.onConnect then connectCalls script calls (ac.record (.onConnect status)) else some ac

/-- `__redisAsyncHandleConnect` with such a connect callback. -/
def asyncHandleConnectWith (check : SocketCheck) (calls : List ApiCall) (ac : AsyncContext) :
    Option (Status × AsyncContext) :=
  match check with
  | .inProgress => some (.ok, { ac with cErr := some .io })
  | .failed =>
      (({ ac with cErr := some .io }.notifyConnectWith script .err calls).bind
        (asyncDisconnect script)).map (.err, ·)
  | .connected =>
      ({ ac with flags := { ac.flags with connected := true } }.notifyConnectWith script .ok
        calls).map (.ok, ·)

/-- The common head of the two handlers with such a connect callback. -/
def whenConnectedWith (check : SocketCheck) (calls : List ApiCall)
    (handle : AsyncContext → Option AsyncContext) (ac : AsyncContext) : Option AsyncContext :=
  if ac.flags.connected then handle ac
  else
    (ac.asyncHandleConnectWith script check calls).bind fun
      | (.err, ac) => some ac
      | (.ok, ac) => if ac.flags.connected then handle ac else some ac

variable {script}

/-- A connect callback that issues commands frees nothing. -/
theorem connectCalls_commands (commands : List (Option ℕ × ℕ × List UInt8)) {ac : AsyncContext}
    (h : ac.freed = false) :
    ac.connectCalls script (commands.map fun c ↦ .command c.1 c.2.1 c.2.2) =
      commands.foldlM (fun ac c ↦ (ac.asyncCommand c.1 c.2.1 c.2.2).map Prod.snd) ac := by
  induction commands generalizing ac with
  | nil => rfl
  | cons c commands ih =>
      rw [List.map_cons, connectCalls, List.foldlM_cons, List.foldlM_cons, perform, performWith]
      cases hc : ac.asyncCommand c.1 c.2.1 c.2.2 with
      | none => rfl
      | some p =>
          have hfreed : p.2.freed = false :=
            (congrArg Standing.freed (asyncCommand_inside hc).standing).trans h
          rw [Option.map_some, Option.filter_some_pos (by simp [hfreed])]
          exact ih hfreed

theorem notifyConnectWith_commands (status : Status)
    (commands : List (Option ℕ × ℕ × List UInt8)) {ac : AsyncContext} (h : ac.freed = false) :
    ac.notifyConnectWith script status (commands.map fun c ↦ .command c.1 c.2.1 c.2.2) =
      ac.notifyConnect status commands := by
  unfold notifyConnectWith notifyConnect
  split
  · exact connectCalls_commands commands h
  · rfl

theorem asyncHandleConnectWith_commands (check : SocketCheck)
    (commands : List (Option ℕ × ℕ × List UInt8)) {ac : AsyncContext} (h : ac.freed = false) :
    ac.asyncHandleConnectWith script check (commands.map fun c ↦ .command c.1 c.2.1 c.2.2) =
      ac.asyncHandleConnect script check commands := by
  cases check with
  | inProgress => rfl
  | failed =>
      unfold asyncHandleConnectWith asyncHandleConnect
      rw [notifyConnectWith_commands .err commands
        (show ({ ac with cErr := some .io } : AsyncContext).freed = false from h)]
  | connected =>
      unfold asyncHandleConnectWith asyncHandleConnect
      rw [notifyConnectWith_commands .ok commands (show ({ ac with
        flags := { ac.flags with connected := true } } : AsyncContext).freed = false from h)]

/-- With a connect callback that only issues commands, the head of the handlers
is the one of `redisAsyncHandleRead` and `redisAsyncHandleWrite`. -/
theorem whenConnectedWith_commands (check : SocketCheck)
    (commands : List (Option ℕ × ℕ × List UInt8)) (handle : AsyncContext → Option AsyncContext)
    {ac : AsyncContext} (h : ac.freed = false) :
    ac.whenConnectedWith script check (commands.map fun c ↦ .command c.1 c.2.1 c.2.2) handle =
      ac.whenConnected script check commands handle := by
  unfold whenConnectedWith whenConnected
  split
  · rfl
  · exact congrArg (fun r : Option (Status × AsyncContext) ↦ r.bind fun
      | (.err, ac) => some ac
      | (.ok, ac) => if ac.flags.connected then handle ac else some ac)
      (asyncHandleConnectWith_commands check commands h)

/-- What the connect callback calls does not disturb the context. -/
theorem Open.connectCalls {p : Phase} {ac ac' : AsyncContext} (h : Open p ac)
    {calls : List ApiCall} (hcalls : ac.connectCalls script calls = some ac') :
    Undisturbed ac ac' := by
  induction calls generalizing ac with
  | nil => exact Option.some.inj hcalls ▸ .refl ac
  | cons call calls ih =>
      rw [AsyncContext.connectCalls, List.foldlM_cons] at hcalls
      obtain ⟨ac₁, hcall, hrest⟩ := Option.bind_eq_some_iff.mp hcalls
      obtain ⟨hperform, hlive⟩ := Option.filter_eq_some_iff.mp hcall
      rcases h.perform call hperform with hu | hended
      · exact hu.trans (ih (h.undisturbed hu) hrest)
      · simp [hended.freed] at hlive

/-- The connect callback is run while nothing is known of the connection. -/
theorem Open.record_onConnect {p : Phase} {ac : AsyncContext} (h : Open .opening ac)
    {status : Status} (hnext : lifeGrammar.next .opening (.onConnect status) = some p)
    {connected : Bool} (hconnected : connected = true ↔ p = .up) (cErr : Option RedisErr) :
    Open p (({ ac with
      cErr := cErr
      flags := { ac.flags with connected := connected } } : AsyncContext).record
        (.onConnect status)) := by
  refine ⟨h.freed, h.idle, h.onConnect, h.onDisconnect, ?_, hconnected, ?_⟩
  · show lifeGrammar.after .opening (ac.trace ++ [.onConnect status]) = some p
    rw [Grammar.after_append, h.phase, Option.bind_some, Grammar.after, hnext]
    rfl
  · rintro rfl
    cases status <;> cases hnext

theorem Open.notifyConnect {p : Phase} {ac ac' : AsyncContext} {status : Status}
    (h : Open p (ac.record (.onConnect status))) {calls : List ApiCall}
    (hnotify : ac.notifyConnectWith script status calls = some ac') :
    Open p ac' ∧ ac'.cErr = ac.cErr := by
  rw [notifyConnectWith, if_pos (show ac.onConnect = true from h.onConnect)] at hnotify
  have hu := h.connectCalls hnotify
  exact ⟨h.undisturbed hu, congrArg Standing.cErr hu.standing⟩

/-- After the connect check the context is up, still opening, or torn down. -/
theorem Open.asyncHandleConnect {ac : AsyncContext} (h : Open .opening ac) {check : SocketCheck}
    {calls : List ApiCall} {q : Status × AsyncContext}
    (hq : ac.asyncHandleConnectWith script check calls = some q) :
    q.1 = .ok ∧ (Open .opening q.2 ∨ Open .up q.2) ∨ q.1 = .err ∧ Ended q.2 := by
  cases check with
  | inProgress =>
      obtain rfl := Option.some.inj hq
      exact Or.inl ⟨rfl, Or.inl ⟨h.1, h.2, h.3, h.4, h.5, h.6, h.7⟩⟩
  | failed =>
      obtain ⟨ac', hbind, rfl⟩ := Option.map_eq_some_iff.mp hq
      obtain ⟨ac₁, hnotify, hdisconnect⟩ := Option.bind_eq_some_iff.mp hbind
      have hconnected : ac.flags.connected = true ↔ Phase.refused = .up :=
        h.connected.trans (by decide)
      obtain ⟨hopen, herr⟩ := (h.record_onConnect rfl hconnected (some .io)).notifyConnect hnotify
      exact Or.inr ⟨rfl, hopen.asyncDisconnect (Or.inr (herr ▸ Option.some_ne_none _)) hdisconnect⟩
  | connected =>
      obtain ⟨ac', hnotify, rfl⟩ := Option.map_eq_some_iff.mp hq
      have hconnected : true = true ↔ Phase.up = .up := by decide
      have hopen := (h.record_onConnect rfl hconnected ac.cErr).notifyConnect hnotify
      exact Or.inl ⟨rfl, Or.inr hopen.1⟩

/-- What holds of a context between two events. -/
def Lawful (ac : AsyncContext) : Prop := (Open .opening ac ∨ Open .up ac) ∨ Ended ac

theorem Open.whenConnected {ac ac' : AsyncContext} (h : Open .opening ac ∨ Open .up ac)
    {check : SocketCheck} {calls : List ApiCall} {handle : AsyncContext → Option AsyncContext}
    (hhandle : ∀ {ac ac'}, Open .up ac → handle ac = some ac' → Goes ac ac')
    (hwhen : ac.whenConnectedWith script check calls handle = some ac') : Lawful ac' := by
  have hup : ∀ {ac}, Open .opening ac ∨ Open .up ac → ac.flags.connected = true →
      handle ac = some ac' → Lawful ac' := by
    intro ac hopen hconnected hgo
    have hopen : Open .up ac := hopen.resolve_left fun ho ↦ by
      simpa using ho.connected.mp hconnected
    exact (hhandle hopen hgo).imp_left fun hu ↦ Or.inr (hopen.undisturbed hu)
  unfold whenConnectedWith at hwhen
  split at hwhen
  · rename_i hconnected
    exact hup h hconnected hwhen
  · rename_i hconnected
    have hopening : Open .opening ac := h.resolve_right fun ho ↦ hconnected (ho.connected.mpr rfl)
    obtain ⟨⟨status, ac₁⟩, hconnect, hrest⟩ := Option.bind_eq_some_iff.mp hwhen
    rcases hopening.asyncHandleConnect hconnect with ⟨hok, hopen⟩ | ⟨herr, hended⟩
    · obtain rfl : status = .ok := hok
      simp only at hrest
      split at hrest
      · rename_i hconnected₁
        exact hup hopen hconnected₁ hrest
      · obtain rfl := Option.some.inj hrest
        exact Or.inl hopen
    · obtain rfl : status = .err := herr
      exact Or.inr (Option.some.inj hrest ▸ hended)

end Script

/-! ## Whole lives -/

section Script

variable (script : ℕ → List ApiCall)

def redisAsyncHandleReadWith (check : SocketCheck) (calls : List ApiCall)
    (data : Except RedisErr (List ReplyTree × Option RedisErr)) (ac : AsyncContext) :
    Option AsyncContext :=
  ac.whenConnectedWith script check calls (readConnected script data)

def redisAsyncHandleWriteWith (check : SocketCheck) (calls : List ApiCall)
    (written : Except RedisErr ℕ) (ac : AsyncContext) : Option AsyncContext :=
  ac.whenConnectedWith script check calls (writeConnected script written)

end Script

/-- What happens to a context: a call from outside, and the two socket events,
with what the connect callback calls if it is run. -/
inductive LifeInput where
  | call (c : ApiCall)
  | readable (check : SocketCheck) (calls : List ApiCall)
      (data : Except RedisErr (List ReplyTree × Option RedisErr))
  | writable (check : SocketCheck) (calls : List ApiCall) (written : Except RedisErr ℕ)

def live (script : ℕ → List ApiCall) (ac : AsyncContext) : LifeInput → Option AsyncContext
  | .call c => ac.perform script c
  | .readable check calls data => ac.redisAsyncHandleReadWith script check calls data
  | .writable check calls written => ac.redisAsyncHandleWriteWith script check calls written

/-- An input whose connect callback only issues commands. -/
def LifeInput.ofAsyncInput : AsyncInput → LifeInput
  | .call c => .call c
  | .readable check commands data =>
      .readable check (commands.map fun c ↦ .command c.1 c.2.1 c.2.2) data
  | .writable check commands written =>
      .writable check (commands.map fun c ↦ .command c.1 c.2.1 c.2.2) written

/-- Of these inputs a context makes what it makes of the commands. -/
theorem live_ofAsyncInput (script : ℕ → List ApiCall) (input : AsyncInput) {ac : AsyncContext}
    (h : ac.freed = false) : ac.live script (.ofAsyncInput input) = ac.react script input := by
  cases input with
  | call c => rfl
  | readable check commands data => exact whenConnectedWith_commands check commands _ h
  | writable check commands written => exact whenConnectedWith_commands check commands _ h

/-- A context with both callbacks from its first event on, until it is freed. -/
def life (script : ℕ → List ApiCall) : Machine AsyncContext LifeInput where
  start ac := ∃ cErr, ac = redisAsyncInitialize cErr true true
  step ac input := if ac.freed then none else ac.live script input

/-- The order of the callbacks of a context. -/
structure InOrder (ac : AsyncContext) : Prop where
  connect_once : ac.trace.countP Event.isOnConnect ≤ 1
  disconnect_once : ac.trace.countP Event.isOnDisconnect ≤ 1
  disconnect_iff : (∃ status, .onDisconnect status ∈ ac.trace) ↔
    .onConnect .ok ∈ ac.trace ∧ ac.freed = true
  disconnect_last : ∀ before status after, ac.trace = before ++ .onDisconnect status :: after →
    after = [] ∧ Settled ac before ∧
      ∀ fn privdata cmd, ac.asyncCommand fn privdata cmd = some (.err, ac)

theorem Open.inOrder {p : Phase} {ac : AsyncContext} (h : Open p ac) : InOrder ac := by
  have hno : ¬∃ status, .onDisconnect status ∈ ac.trace :=
    fun hmem ↦ h.not_closed ((exists_onDisconnect_iff h.phase).mp hmem)
  refine ⟨countP_isOnConnect_le h.phase, countP_isOnDisconnect_le h.phase, ?_, ?_⟩
  · have hfreed := h.freed
    simp [hno, hfreed]
  · intro before status after htrace
    exact (hno ⟨status, by simp [htrace]⟩).elim

theorem Ended.inOrder {ac : AsyncContext} (h : Ended ac) : InOrder ac := by
  obtain ⟨p, hphase, hnot⟩ := h.phase
  refine ⟨countP_isOnConnect_le hphase, countP_isOnDisconnect_le hphase, ?_, ?_⟩
  · rw [exists_onDisconnect_iff hphase, mem_onConnect_ok_iff hphase]
    have hfreed := h.freed
    simp [hnot, hfreed]
  · intro before status after htrace
    obtain rfl := onDisconnect_last hphase htrace
    refine ⟨rfl, ⟨h.settled.1, h.settled.2, ?_⟩, fun fn privdata cmd ↦ if_pos h.closing⟩
    intro pattern name cb fn hlookup hfn
    simpa [htrace] using h.settled.3 pattern name cb fn hlookup hfn

section Script

variable {script : ℕ → List ApiCall}

theorem lawful_live {ac ac' : AsyncContext} {input : LifeInput}
    (h : Open .opening ac ∨ Open .up ac) (hlive : ac.live script input = some ac') :
    Lawful ac' := by
  cases input with
  | call c =>
      rcases h with h | h
      · exact (h.perform c hlive).imp_left fun hu ↦ Or.inl (h.undisturbed hu)
      · exact (h.perform c hlive).imp_left fun hu ↦ Or.inr (h.undisturbed hu)
  | readable check calls data =>
      exact Open.whenConnected h (fun ho hread ↦ ho.readConnected hread) hlive
  | writable check calls written =>
      exact Open.whenConnected h (fun ho hwrite ↦ ho.writeConnected hwrite) hlive

theorem lawful {ac : AsyncContext} (h : (life script).Reachable ac) : Lawful ac := by
  apply Machine.Reach.invariant ?_ ?_ h
  · rintro ac ⟨cErr, rfl⟩
    exact Or.inl (Or.inl ⟨rfl, rfl, rfl, rfl, rfl, by simp [redisAsyncInitialize], by decide⟩)
  · intro ac input ac' hinv _ hstep
    simp only [life] at hstep
    split at hstep
    · simp at hstep
    · rename_i hfreed
      exact lawful_live (hinv.resolve_right fun hended ↦ hfreed hended.freed) hstep

/-- In all runs the connect callback is run at most once.  The disconnect callback
is run at most once, and exactly when the connect callback was run with
`REDIS_OK` and the context is torn down.  It is the last event: all other
callbacks were run before, none is left, and commands are refused. -/
theorem reachable_inOrder {ac : AsyncContext} (h : (life script).Reachable ac) : InOrder ac := by
  rcases lawful h with (h | h) | h
  · exact h.inOrder
  · exact h.inOrder
  · exact h.inOrder

end Script

/-- The connect callback issues a command and disconnects, which waits for the
two replies. -/
theorem reachable_inOrder_disconnect :
    ∃ ac : AsyncContext, (ac.trace.countP Event.isRun = 2 ∧ ac.freed = true ∧
      ac.trace.countP Event.isOnDisconnect = 1) ∧ InOrder ac := by
  let script : ℕ → List ApiCall := fun _ ↦ []
  let ping : List UInt8 := [42, 49, 13, 10, 36, 52, 13, 10, 80, 73, 78, 71, 13, 10]
  let pong : ReplyTree := .status [80, 79, 78, 71]
  have hstart : (life script).Reachable (redisAsyncInitialize none true true) := .start ⟨none, rfl⟩
  obtain ⟨ac, hrun, hac⟩ := Machine.run_spec (life script) (redisAsyncInitialize none true true)
    [.call (.command (some 1) 0 ping),
      .writable .connected [.command (some 2) 0 ping, .disconnect] (.ok 28),
      .readable .connected [] (.ok ([pong, pong], none))]
    (fun ac ↦ decide (ac.trace.countP Event.isRun = 2 ∧ ac.freed = true ∧
      ac.trace.countP Event.isOnDisconnect = 1)) (by decide +kernel)
  exact ⟨ac, of_decide_eq_true hac, reachable_inOrder (hstart.run hrun)⟩

end AsyncContext

end MuxHiredis
