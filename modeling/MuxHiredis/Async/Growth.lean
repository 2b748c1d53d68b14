import MuxHiredis.Async.Callbacks
import MuxHiredis.Lib.Logged

/-!
# The history of a context grows

No function of `async.c` takes back what is written in the history.  On the way
the results of `__redisGetSubscribeCallback` and of the lookup of a callback are
listed once.
-/

namespace MuxHiredis

open Logged

instance : Logged Event AsyncContext := ⟨AsyncContext.trace⟩

instance : Logged Event (Status × AsyncContext) := ⟨fun p ↦ p.2.trace⟩

instance : Logged Event AsyncContext.Processed where
  log
    | .next _ ac => ac.trace
    | .done ac => ac.trace

namespace AsyncContext

/-! ## All functions only add to the history -/

theorem trace_prefix_record (ac : AsyncContext) (e : Event) :
    ac.trace <+: (ac.record e).trace := List.prefix_append _ _

theorem registerCallback_extends (kind : CommandKind) (cb : RedisCallback) :
    Extends fun ac : AsyncContext ↦ ac.registerCallback kind cb := by
  intro ac ac' h
  cases kind with
  | subscribe pattern names =>
      have hnames : ∀ (names : List (List UInt8)) (ac : AsyncContext),
          (names.foldl (fun ac name ↦ ac.subscribeTo pattern cb name) ac).trace = ac.trace := by
        intro names
        induction names with
        | nil => exact fun ac ↦ rfl
        | cons name names ih =>
            intro ac
            rw [List.foldl_cons, ih, subscribeTo]
            split <;> rfl
      simp only [registerCallback, Option.some.injEq] at h
      subst h
      refine List.IsPrefix.trans ?_ (trace_prefix_record _ _)
      rw [hnames]
      exact List.prefix_rfl
  | unsubscribe =>
      simp only [registerCallback] at h
      split at h
      · exact Option.some.inj h ▸ List.prefix_rfl
      · simp at h
  | monitor =>
      simp only [registerCallback, Option.some.injEq] at h
      subst h
      exact List.prefix_append _ _
  | regular =>
      simp only [registerCallback] at h
      split at h <;> exact Option.some.inj h ▸ List.prefix_rfl

theorem asyncCommand_extends (fn : Option ℕ) (privdata : ℕ) (cmd : List UInt8) :
    Extends fun ac : AsyncContext ↦ ac.asyncCommand fn privdata cmd := by
  intro ac p h
  simp only [asyncCommand] at h
  split at h
  · exact Option.some.inj h ▸ List.prefix_rfl
  · obtain ⟨kind, -, rfl⟩ := Option.map_eq_some_iff.mp h
    cases hreg : ac.registerCallback kind ⟨fn, privdata⟩ with
    | none => exact List.prefix_rfl
    | some ac' =>
        exact (registerCallback_extends kind _ ac ac' hreg).trans (List.prefix_append _ _)

theorem performWith_extends {teardown disconnect : AsyncContext → Option AsyncContext}
    (ht : Extends teardown) (hd : Extends disconnect) (call : ApiCall) :
    Extends (performWith teardown disconnect call) := by
  cases call with
  | command fn privdata cmd =>
      exact (asyncCommand_extends fn privdata cmd).map fun p ↦ List.prefix_rfl
  | disconnect =>
      intro ac ac' h
      simp only [performWith, disconnectWith] at h
      split at h
      · have hgrows := hd _ _ h
        exact hgrows
      · exact Option.some.inj h ▸ List.prefix_rfl
  | free =>
      intro ac ac' h
      simp only [performWith, freeWith] at h
      split at h
      · exact Option.some.inj h ▸ List.prefix_rfl
      · have hgrows := ht _ _ h
        exact hgrows

theorem performInside_extends (call : ApiCall) : Extends (performInside call) :=
  performWith_extends (Extends.some fun _ ↦ List.prefix_rfl)
    (Extends.some fun _ ↦ List.prefix_rfl) call

section Script

variable (script : ℕ → List ApiCall)

theorem runCallback_extends (cb : RedisCallback) (reply : Option ReplyTree) :
    Extends fun ac : AsyncContext ↦ ac.runCallback script cb reply := by
  intro ac ac' h
  unfold runCallback at h
  cases hfn : cb.fn with
  | none =>
      rw [hfn] at h
      exact Option.some.inj h ▸ List.prefix_rfl
  | some fn =>
      rw [hfn] at h
      obtain ⟨ac₁, hfold, rfl⟩ := Option.map_eq_some_iff.mp h
      exact (List.prefix_append _ _).trans
        (Extends.foldlM (fun call ↦ performInside_extends call) _ _ _ hfold)

theorem drainFor_extends {shift : AsyncContext → Option (RedisCallback × AsyncContext)}
    (hshift : ∀ {ac cb ac'}, shift ac = some (cb, ac') → ac'.trace = ac.trace) (n : ℕ) :
    Extends (drainFor script shift n) := by
  induction n with
  | zero => exact Extends.some fun _ ↦ List.prefix_rfl
  | succ n ih =>
      intro ac ac' h
      unfold drainFor at h
      cases hs : shift ac with
      | none =>
          rw [hs] at h
          exact Option.some.inj h ▸ List.prefix_rfl
      | some p =>
          rw [hs] at h
          have hrun := (runCallback_extends script p.1 none).bind ih p.2 ac' h
          exact (hshift hs ▸ List.prefix_rfl : ac.trace <+: p.2.trace).trans hrun

theorem shiftReplies_trace {ac ac' : AsyncContext} {cb : RedisCallback}
    (h : ac.shiftReplies = some (cb, ac')) : ac'.trace = ac.trace := by
  unfold shiftReplies at h
  split at h
  · simp at h
  · obtain ⟨-, rfl⟩ := Prod.mk.inj (Option.some.inj h)
    rfl

theorem shiftInvalid_trace {ac ac' : AsyncContext} {cb : RedisCallback}
    (h : ac.shiftInvalid = some (cb, ac')) : ac'.trace = ac.trace := by
  unfold shiftInvalid at h
  split at h
  · simp at h
  · obtain ⟨-, rfl⟩ := Prod.mk.inj (Option.some.inj h)
    rfl

theorem runAll_extends (cbs : List RedisCallback) : Extends (runAll script cbs) :=
  Extends.foldlM (fun cb ↦ runCallback_extends script cb none) cbs

theorem endSubscriptions_extends : Extends (endSubscriptions script) := by
  intro ac ac' h
  refine (drainFor_extends script shiftInvalid_trace _).bind ?_ ac ac' h
  intro ac₁ ac' h
  refine (runAll_extends script _).bind ?_ ac₁ ac' h
  exact fun ac₂ ac' h ↦ runAll_extends script _ ac₂ ac' h

theorem trace_prefix_notifyDisconnect (ac : AsyncContext) :
    ac.trace <+: ac.notifyDisconnect.trace := by
  unfold notifyDisconnect
  split
  · exact trace_prefix_record _ _
  · exact List.prefix_rfl

theorem asyncFree_extends : Extends (asyncFree script) := by
  intro ac ac' h
  refine (trace_prefix_record ac .teardown).trans ?_
  refine (drainFor_extends script shiftReplies_trace _).bind ?_ (ac.record .teardown) ac' h
  exact (endSubscriptions_extends script).map trace_prefix_notifyDisconnect

theorem asyncDisconnect_extends : Extends (asyncDisconnect script) := by
  intro ac ac' h
  simp only [asyncDisconnect] at h
  split at h
  · split at h
    · have hgrows := asyncFree_extends script _ _ h
      exact hgrows
    · simp at h
  · have hgrows := asyncFree_extends script _ _ h
    exact hgrows

theorem unsubscribed_trace (ac : AsyncContext) (pattern : Bool) (name : List UInt8)
    (remaining : ℤ) : (ac.unsubscribed pattern name remaining).trace = ac.trace := by
  unfold unsubscribed
  split <;> split <;> rfl

/-- What `__redisGetSubscribeCallback` can do: nothing, find the callback of a
subscription, or take that of an invalid command. -/
theorem getSubscribeCallback_cases {ac ac' : AsyncContext} {reply : ReplyTree}
    {dstcb cb : RedisCallback} (h : ac.getSubscribeCallback reply dstcb = some (cb, ac')) :
    (cb = dstcb ∧ ac' = ac) ∨
      (∃ pattern name, (ac.callbacks pattern).lookup name = some cb ∧
        (ac' = ac ∨ ∃ remaining, ac' = ac.unsubscribed pattern name remaining)) ∨
      ac.shiftInvalid = some (cb, ac') := by
  have hinvalid : some (ac.shiftInvalid.getD (dstcb, ac)) = some (cb, ac') →
      (cb = dstcb ∧ ac' = ac) ∨ ac.shiftInvalid = some (cb, ac') := by
    intro h
    cases hs : ac.shiftInvalid with
    | none =>
        rw [hs] at h
        obtain ⟨rfl, rfl⟩ := Prod.mk.inj (Option.some.inj h)
        exact Or.inl ⟨rfl, rfl⟩
    | some q =>
        rw [hs] at h
        exact Or.inr h
  unfold getSubscribeCallback at h
  split at h
  · split at h
    · split at h
      · obtain ⟨rfl, rfl⟩ := Prod.mk.inj (Option.some.inj h)
        exact Or.inl ⟨rfl, rfl⟩
      · rename_i cb' hfound
        split at h
        · split at h
          · obtain ⟨rfl, rfl⟩ := Prod.mk.inj (Option.some.inj h)
            exact Or.inr (Or.inl ⟨_, _, hfound, Or.inr ⟨_, rfl⟩⟩)
          · simp at h
        · obtain ⟨rfl, rfl⟩ := Prod.mk.inj (Option.some.inj h)
          exact Or.inr (Or.inl ⟨_, _, hfound, Or.inl rfl⟩)
    · simp at h
  · exact (hinvalid h).imp_right Or.inr

theorem getSubscribeCallback_trace {ac ac' : AsyncContext} {reply : ReplyTree}
    {dstcb cb : RedisCallback} (h : ac.getSubscribeCallback reply dstcb = some (cb, ac')) :
    ac'.trace = ac.trace := by
  rcases getSubscribeCallback_cases h with ⟨-, rfl⟩ | ⟨pattern, name, -, rfl | ⟨n, rfl⟩⟩ | hs
  · rfl
  · rfl
  · exact unsubscribed_trace _ _ _ _
  · exact shiftInvalid_trace hs

theorem pickCallback_run_trace {ac ac' : AsyncContext} {reply : ReplyTree}
    {cb cb' : RedisCallback} (h : ac.pickCallback cb reply = some (.run cb' ac')) :
    ac'.trace = ac.trace := by
  unfold pickCallback at h
  split at h
  · rename_i hs
    cases h
    exact shiftReplies_trace hs
  · split at h
    · simp at h
    · split at h
      · obtain ⟨p, hp, hpq⟩ := Option.map_eq_some_iff.mp h
        cases hpq
        exact getSubscribeCallback_trace hp
      · split at h
        · cases h
          rfl
        · simp at h

theorem pickCallback_disconnect {ac ac' : AsyncContext} {reply : ReplyTree}
    {cb : RedisCallback} (h : ac.pickCallback cb reply = some (.disconnect ac')) :
    ac' = { ac with cErr := some .other } := by
  unfold pickCallback at h
  split at h
  · simp at h
  · split at h
    · cases h
      rfl
    · split at h
      · obtain ⟨p, -, hpq⟩ := Option.map_eq_some_iff.mp h
        simp at hpq
      · split at h <;> simp at h

/-- A turn of the loop only adds to the history. -/
theorem processReply_extends (cb : RedisCallback) (reply : ReplyTree) :
    Extends fun ac : AsyncContext ↦ ac.processReply script cb reply := by
  intro ac p h
  refine (trace_prefix_record ac (.reply reply)).trans ?_
  simp only [processReply] at h
  split at h
  · simp at h
  · rename_i hpick
    have hgrows := (asyncDisconnect_extends script).map (g := Processed.done)
      (fun ac ↦ List.prefix_rfl) _ _ h
    rwa [pickCallback_disconnect hpick] at hgrows
  · rename_i cb' ac' hpick
    rw [← pickCallback_run_trace hpick]
    split at h
    · exact Option.some.inj h ▸ List.prefix_rfl
    · refine (runCallback_extends script cb' (some reply)).bind ?_ ac' p h
      intro ac₁ p₁ h₁
      simp only at h₁
      split at h₁
      · exact (asyncFree_extends script).map (g := Processed.done)
          (fun ac ↦ List.prefix_rfl) _ _ h₁
      · exact Option.some.inj h₁ ▸ List.prefix_rfl

theorem endOfReplies_extends (failed : Option RedisErr) (cb : RedisCallback) :
    Extends (endOfReplies script failed cb) := by
  intro ac ac' h
  cases failed with
  | some e =>
      simp only [endOfReplies] at h
      have hgrows := asyncDisconnect_extends script _ _ h
      exact hgrows
  | none =>
      simp only [endOfReplies] at h
      split at h
      · exact asyncDisconnect_extends script _ _ h
      · split at h <;> exact Option.some.inj h ▸ List.prefix_rfl

theorem processReplies_extends (replies : List ReplyTree) (failed : Option RedisErr)
    (cb : RedisCallback) : Extends (processReplies script replies failed cb) := by
  induction replies generalizing cb with
  | nil => exact endOfReplies_extends script failed cb
  | cons reply rest ih =>
      refine (processReply_extends script cb reply).bind ?_
      intro p ac' h
      cases p with
      | next cb' ac => exact ih cb' ac ac' h
      | done ac => exact Option.some.inj h ▸ List.prefix_rfl

theorem notifyConnect_extends (status : Status)
    (commands : List (Option ℕ × ℕ × List UInt8)) :
    Extends (notifyConnect status commands) := by
  intro ac ac' h
  unfold notifyConnect at h
  split at h
  · refine (trace_prefix_record ac (.onConnect status)).trans ?_
    exact Extends.foldlM (fun c : Option ℕ × ℕ × List UInt8 ↦
      (asyncCommand_extends c.1 c.2.1 c.2.2).map fun _ ↦ List.prefix_rfl) commands _ _ h
  · exact Option.some.inj h ▸ List.prefix_rfl

theorem asyncHandleConnect_extends (check : SocketCheck)
    (commands : List (Option ℕ × ℕ × List UInt8)) :
    Extends (asyncHandleConnect script check commands) := by
  intro ac p h
  cases check with
  | inProgress => exact Option.some.inj h ▸ List.prefix_rfl
  | failed =>
      exact (((notifyConnect_extends .err commands).bind (asyncDisconnect_extends script)).map
        (g := fun ac ↦ (Status.err, ac)) fun _ ↦ List.prefix_rfl)
          { ac with cErr := some .io } p h
  | connected =>
      exact ((notifyConnect_extends .ok commands).map (g := fun ac ↦ (Status.ok, ac))
        fun _ ↦ List.prefix_rfl)
          { ac with flags := { ac.flags with connected := true } } p h

/-- What a handler does after `__redisAsyncHandleConnect`. -/
theorem afterConnect_extends {handle : AsyncContext → Option AsyncContext}
    (hhandle : Extends handle) :
    Extends fun p : Status × AsyncContext ↦
      match p with
      | (.err, ac) => some ac
      | (.ok, ac) => if ac.flags.connected then handle ac else some ac := by
  rintro ⟨status, ac⟩ ac' h
  cases status with
  | err => exact Option.some.inj h ▸ List.prefix_rfl
  | ok =>
      simp only at h
      split at h
      · exact hhandle _ _ h
      · exact Option.some.inj h ▸ List.prefix_rfl

theorem whenConnected_extends {handle : AsyncContext → Option AsyncContext}
    (hhandle : Extends handle) (check : SocketCheck)
    (commands : List (Option ℕ × ℕ × List UInt8)) :
    Extends (whenConnected script check commands handle) := by
  intro ac ac' h
  unfold whenConnected at h
  split at h
  · exact hhandle ac ac' h
  · exact (asyncHandleConnect_extends script check commands).bind
      (afterConnect_extends hhandle) ac ac' h

theorem readConnected_extends (data : Except RedisErr (List ReplyTree × Option RedisErr)) :
    Extends (readConnected script data) := by
  intro ac ac' h
  unfold readConnected at h
  split at h
  · exact asyncDisconnect_extends script _ _ h
  · split at h
    · have hgrows := asyncDisconnect_extends script _ _ h
      exact hgrows
    · exact processReplies_extends script _ _ _ _ _ h

theorem writeConnected_extends (written : Except RedisErr ℕ) :
    Extends (writeConnected script written) := by
  intro ac ac' h
  unfold writeConnected at h
  split at h
  · exact asyncDisconnect_extends script _ _ h
  · split at h
    · have hgrows := asyncDisconnect_extends script _ _ h
      exact hgrows
    · exact Option.some.inj h ▸ List.prefix_rfl

end Script

end AsyncContext

end MuxHiredis
