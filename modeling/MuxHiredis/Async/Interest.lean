import MuxHiredis.Async.Batching
import MuxHiredis.Async.Lifecycle
import MuxHiredis.Net.Output

/-!
# Write interest

A context that is attached to the event loop of `adapters/ae.h`.  Its output goes
on only while the loop watches the socket for being writable.
-/

namespace MuxHiredis

/-! ## `adapters/ae.h` -/

/-- `redisAeEvents`, and what the event loop watches the socket of it for.
Registrations succeed. -/
structure AeEvents where
  reading : Bool
  writing : Bool
  readable : Bool
  writable : Bool
  deriving DecidableEq, Repr

namespace AeEvents

/-- What `redisAeAttach` registers. -/
def attach : AeEvents := ⟨false, false, false, false⟩

def redisAeAddRead (e : AeEvents) : AeEvents :=
  if e.reading then e else { e with reading := true, readable := true }

def redisAeDelRead (e : AeEvents) : AeEvents :=
  if e.reading then { e with reading := false, readable := false } else e

def redisAeAddWrite (e : AeEvents) : AeEvents :=
  if e.writing then e else { e with writing := true, writable := true }

def redisAeDelWrite (e : AeEvents) : AeEvents :=
  if e.writing then { e with writing := false, writable := false } else e

def redisAeCleanup (e : AeEvents) : AeEvents := e.redisAeDelRead.redisAeDelWrite

/-- The record agrees with the loop about write interest. -/
def Agrees (e : AeEvents) : Prop := e.writable = e.writing

theorem Agrees.addRead {e : AeEvents} (h : e.Agrees) : e.redisAeAddRead.Agrees := by
  unfold redisAeAddRead
  split <;> exact h

theorem Agrees.addWrite {e : AeEvents} (h : e.Agrees) : e.redisAeAddWrite.Agrees := by
  unfold redisAeAddWrite
  split
  · exact h
  · rfl

theorem Agrees.delWrite {e : AeEvents} (h : e.Agrees) : e.redisAeDelWrite.Agrees := by
  unfold redisAeDelWrite
  split
  · rfl
  · exact h

@[simp] theorem addRead_writing (e : AeEvents) : e.redisAeAddRead.writing = e.writing := by
  unfold redisAeAddRead
  split <;> rfl

@[simp] theorem addWrite_writing (e : AeEvents) : e.redisAeAddWrite.writing = true := by
  unfold redisAeAddWrite
  split
  · assumption
  · rfl

end AeEvents

/-! ## Attached contexts -/

/-- A context and what is registered for it. -/
structure Attached where
  ac : AsyncContext
  e : AeEvents

namespace Attached

/-- The commands accepted from `ac` to `ac'`. -/
def acceptedSince (ac ac' : AsyncContext) : List RedisCallback :=
  (accepted ac'.trace).drop (accepted ac.trace).length

/-- The context became `ac`.  `__redisAsyncCommand` added write interest for every
command it accepted, and `__redisAsyncFree` cleaned up. -/
def became (s : Attached) (ac : AsyncContext) : Attached :=
  let e := (acceptedSince s.ac ac).foldl (fun e _ ↦ e.redisAeAddWrite) s.e
  ⟨ac, if ac.freed then e.redisAeCleanup else e⟩

/-- `redisAsyncSetConnectCallback`. -/
def redisAsyncSetConnectCallback (s : Attached) : Status × Attached :=
  if s.ac.onConnect then (.err, s)
  else (.ok, ⟨{ s.ac with onConnect := true }, s.e.redisAeAddWrite⟩)

section Script

variable (script : ℕ → List ApiCall)

/-- The common head of the two handlers. -/
def whenConnected (check : SocketCheck) (calls : List ApiCall)
    (handle : Attached → Option Attached) (s : Attached) : Option Attached :=
  if s.ac.flags.connected then handle s
  else
    (s.ac.asyncHandleConnectWith script check calls).bind fun
      | (.err, ac) => some (s.became ac)
      | (.ok, ac) => if ac.flags.connected then handle (s.became ac) else some (s.became ac)

/-- The rest of `redisAsyncHandleRead`. -/
def readConnected (data : Except RedisErr (List ReplyTree × Option RedisErr)) (s : Attached) :
    Option Attached :=
  -- Always re-schedule reads, unless `redisBufferRead` fails.
  let e := if s.ac.cErr = none ∧ data.isOk then s.e.redisAeAddRead else s.e
  (s.ac.readConnected script data).map (Attached.became ⟨s.ac, e⟩)

/-- The rest of `redisAsyncHandleWrite`. -/
def writeConnected (written : Except RedisErr ℕ) (s : Attached) : Option Attached :=
  (s.ac.writeConnected script written).map fun ac ↦
    if ac.freed then s.became ac
    else
      -- Continue writing when not done, stop writing otherwise.
      let e := if ac.obuf ≠ [] then s.e.redisAeAddWrite else s.e.redisAeDelWrite
      ⟨ac, e.redisAeAddRead⟩

/-- What happens to an attached context. -/
inductive Input where
  | life (input : AsyncContext.LifeInput)
  | setConnectCallback

def step (s : Attached) : Input → Option Attached
  | .life (.call c) => (s.ac.perform script c).map s.became
  | .life (.readable check calls data) =>
      s.whenConnected script check calls (readConnected script data)
  | .life (.writable check calls written) =>
      s.whenConnected script check calls (writeConnected script written)
  | .setConnectCallback => some s.redisAsyncSetConnectCallback.2

/-- A context from when it is attached to the loop until it is freed. -/
def attached : Machine Attached Input where
  start s := ∃ ac : AsyncContext, ac.onConnect = false ∧ s = ⟨ac, .attach⟩
  step s input := if s.ac.freed then none else s.step script input

variable {script}

/-! ## The context is as before -/

@[simp] theorem became_ac (s : Attached) (ac : AsyncContext) : (s.became ac).ac = ac := rfl

theorem whenConnected_ac (check : SocketCheck) (calls : List ApiCall)
    {handle : Attached → Option Attached} {handle' : AsyncContext → Option AsyncContext}
    (h : ∀ s, (handle s).map Attached.ac = handle' s.ac) (s : Attached) :
    (s.whenConnected script check calls handle).map Attached.ac =
      s.ac.whenConnectedWith script check calls handle' := by
  unfold whenConnected AsyncContext.whenConnectedWith
  split
  · exact h s
  · rw [Option.map_bind]
    congr 1
    funext p
    obtain ⟨status, ac⟩ := p
    cases status with
    | err => rfl
    | ok =>
        simp only [Function.comp_apply]
        split
        · exact h _
        · rfl

/-- The context goes on as it does without what is registered. -/
theorem step_ac (s : Attached) (input : AsyncContext.LifeInput) :
    (s.step script (.life input)).map Attached.ac = s.ac.live script input := by
  cases input with
  | call c =>
      simp only [step, Option.map_map]
      exact Option.map_id'
  | readable check calls data =>
      refine whenConnected_ac check calls (fun s ↦ ?_) s
      simp only [readConnected, Option.map_map]
      exact Option.map_id'
  | writable check calls written =>
      refine whenConnected_ac check calls (fun s ↦ ?_) s
      unfold writeConnected
      cases hwrite : s.ac.writeConnected script written with
      | none => rfl
      | some ac =>
          simp only [Option.map_some]
          split <;> rfl

/-! ## Output comes with accepted commands -/

/-- From `ac` to `ac'` the output changed only if a command was accepted. -/
structure Accounted (ac ac' : AsyncContext) : Prop where
  events : ∃ es, ac'.trace = ac.trace ++ es ∧ (accepted es = [] → ac'.obuf = ac.obuf)
  onConnect : ac'.onConnect = ac.onConnect

theorem Accounted.refl (ac : AsyncContext) : Accounted ac ac := ⟨⟨[], by simp, fun _ ↦ rfl⟩, rfl⟩

theorem Accounted.trans {ac₁ ac₂ ac₃ : AsyncContext} (h : Accounted ac₁ ac₂)
    (h' : Accounted ac₂ ac₃) : Accounted ac₁ ac₃ := by
  obtain ⟨es, htrace, hsame⟩ := h.events
  obtain ⟨es', htrace', hsame'⟩ := h'.events
  refine ⟨⟨es ++ es', by rw [htrace', htrace, List.append_assoc], fun hnone ↦ ?_⟩,
    h'.onConnect.trans h.onConnect⟩
  rw [accepted_append, List.append_eq_nil_iff] at hnone
  exact (hsame' hnone.2).trans (hsame hnone.1)

instance : Std.Refl Accounted := ⟨Accounted.refl⟩

instance : IsTrans AsyncContext Accounted := ⟨fun _ _ _ ↦ Accounted.trans⟩

/-- What writes no event and leaves the output alone. -/
theorem Accounted.of_eq {ac ac' : AsyncContext} (htrace : ac'.trace = ac.trace)
    (hobuf : ac'.obuf = ac.obuf) (honConnect : ac'.onConnect = ac.onConnect) :
    Accounted ac ac' :=
  ⟨⟨[], by simp [htrace], fun _ ↦ hobuf⟩, honConnect⟩

theorem Accounted.record (ac : AsyncContext) (e : Event) : Accounted ac (ac.record e) :=
  ⟨⟨[e], rfl, fun _ ↦ rfl⟩, rfl⟩

/-- A command is refused, or it is accepted. -/
theorem asyncCommand_accounted (fn : Option ℕ) (privdata : ℕ) (cmd : List UInt8) :
    Within Accounted fun ac ↦ (ac.asyncCommand fn privdata cmd).map Prod.snd := by
  intro ac ac' h
  obtain ⟨p, hp, rfl⟩ := Option.map_eq_some_iff.mp h
  have honConnect : p.2.onConnect = ac.onConnect :=
    congrArg AsyncContext.Standing.onConnect (AsyncContext.asyncCommand_inside hp).standing
  unfold AsyncContext.asyncCommand at hp
  split at hp
  · exact Option.some.inj hp ▸ .refl ac
  · obtain ⟨kind, -, rfl⟩ := Option.map_eq_some_iff.mp hp
    cases hreg : ac.registerCallback kind ⟨fn, privdata⟩ with
    | none => exact .refl ac
    | some ac₁ =>
        rw [hreg] at honConnect
        obtain ⟨es, hes⟩ := AsyncContext.registerCallback_extends kind _ ac ac₁ hreg
        have htrace : ac₁.trace = ac.trace ++ es := hes.symm
        refine ⟨⟨es ++ [.accept ⟨fn, privdata⟩], ?_, fun hnone ↦ ?_⟩, honConnect⟩
        · simp only [AsyncContext.record, htrace, List.append_assoc]
        · simp [accepted] at hnone

theorem performInside_accounted (call : ApiCall) :
    Within Accounted (AsyncContext.performInside call) := by
  intro ac ac' h
  cases call with
  | command fn privdata cmd => exact asyncCommand_accounted fn privdata cmd ac ac' h
  | disconnect =>
      simp only [AsyncContext.performInside, AsyncContext.performWith,
        AsyncContext.disconnectWith, ite_self, Option.some.injEq] at h
      exact h ▸ .of_eq rfl rfl rfl
  | free =>
      simp only [AsyncContext.performInside, AsyncContext.performWith, AsyncContext.freeWith,
        ite_self, Option.some.injEq] at h
      exact h ▸ .of_eq rfl rfl rfl

theorem runCallback_accounted (cb : RedisCallback) (reply : Option ReplyTree) :
    Within Accounted fun ac ↦ ac.runCallback script cb reply := by
  intro ac ac' h
  unfold AsyncContext.runCallback at h
  cases hfn : cb.fn with
  | none =>
      rw [hfn] at h
      exact Option.some.inj h ▸ .refl ac
  | some fn =>
      rw [hfn] at h
      obtain ⟨ac₁, hcalls, rfl⟩ := Option.map_eq_some_iff.mp h
      have hbody := Within.foldlM performInside_accounted _ _ _ hcalls
      have hentered : Accounted ac ({ ac with
          flags := { ac.flags with inCallback := true } }.record (.run fn cb.privdata reply)) :=
        ⟨⟨[_], rfl, fun _ ↦ rfl⟩, rfl⟩
      exact (hentered.trans hbody).trans (.of_eq rfl rfl rfl)

theorem pickCallback_accounted {ac ac' : AsyncContext} {reply : ReplyTree}
    {cb cb' : RedisCallback} (h : ac.pickCallback cb reply = some (.run cb' ac')) :
    Accounted ac ac' := by
  have hinvalid : ∀ {ac ac' : AsyncContext} {cb}, ac.shiftInvalid = some (cb, ac') →
      ac'.obuf = ac.obuf := by
    intro ac ac' cb hs
    unfold AsyncContext.shiftInvalid at hs
    split at hs
    · simp at hs
    · obtain ⟨-, rfl⟩ := Prod.mk.inj (Option.some.inj hs)
      rfl
  refine .of_eq (AsyncContext.pickCallback_run_trace h) ?_
    (congrArg AsyncContext.Standing.onConnect (AsyncContext.pickCallback_undisturbed h).standing)
  unfold AsyncContext.pickCallback at h
  split at h
  · rename_i hs
    cases h
    unfold AsyncContext.shiftReplies at hs
    split at hs
    · simp at hs
    · obtain ⟨-, rfl⟩ := Prod.mk.inj (Option.some.inj hs)
      rfl
  · split at h
    · simp at h
    · split at h
      · obtain ⟨q, hq, hrun⟩ := Option.map_eq_some_iff.mp h
        cases hrun
        rcases AsyncContext.getSubscribeCallback_cases hq with
          ⟨-, hac⟩ | ⟨pattern, name, -, hac | ⟨n, hac⟩⟩ | hs
        · rw [hac]
        · rw [hac]
        · rw [hac]
          unfold AsyncContext.unsubscribed
          split <;> split <;> rfl
        · exact hinvalid hs
      · split at h
        · cases h
          rfl
        · simp at h

/-! ## Every function accounts for the output or frees the context -/

/-- A call frees the context or accounts for the output. -/
def Settles (ac ac' : AsyncContext) : Prop := ac'.freed = true ∨ Accounted ac ac'

theorem Accounted.settles {ac₁ ac₂ ac₃ : AsyncContext} (h : Accounted ac₁ ac₂)
    (h' : Settles ac₂ ac₃) : Settles ac₁ ac₃ := h'.imp_right h.trans

theorem processReply_settles {ac : AsyncContext} {cb : RedisCallback} {reply : ReplyTree}
    {q : AsyncContext.Processed} (hq : ac.processReply script cb reply = some q) :
    match q with
    | .next _ ac' => Accounted ac ac'
    | .done ac' => ac'.freed = true := by
  simp only [AsyncContext.processReply] at hq
  split at hq
  · simp at hq
  · obtain ⟨ac', hdisconnect, rfl⟩ := Option.map_eq_some_iff.mp hq
    exact AsyncContext.asyncDisconnect_freed hdisconnect
  · rename_i cb' ac₁ hpick
    have hpicked : Accounted ac ac₁ :=
      (Accounted.record ac (.reply reply)).trans (pickCallback_accounted hpick)
    split at hq
    · exact Option.some.inj hq ▸ hpicked
    · obtain ⟨ac₂, hrun, hrest⟩ := Option.bind_eq_some_iff.mp hq
      split at hrest
      · obtain ⟨ac', hfree, rfl⟩ := Option.map_eq_some_iff.mp hrest
        exact AsyncContext.asyncFree_freed hfree
      · exact Option.some.inj hrest ▸ hpicked.trans (runCallback_accounted _ _ _ _ hrun)

theorem endOfReplies_settles (failed : Option RedisErr) (cb : RedisCallback) :
    Within Settles (AsyncContext.endOfReplies script failed cb) := by
  intro ac ac' h
  cases failed with
  | some e =>
      simp only [AsyncContext.endOfReplies] at h
      exact Or.inl (AsyncContext.asyncDisconnect_freed h)
  | none =>
      simp only [AsyncContext.endOfReplies] at h
      split at h
      · exact Or.inl (AsyncContext.asyncDisconnect_freed h)
      · split at h
        · exact Or.inr (Option.some.inj h ▸ .of_eq rfl rfl rfl)
        · exact Or.inr (Option.some.inj h ▸ .refl ac)

theorem processReplies_settles (replies : List ReplyTree) (failed : Option RedisErr)
    (cb : RedisCallback) :
    Within Settles (AsyncContext.processReplies script replies failed cb) := by
  induction replies generalizing cb with
  | nil => exact endOfReplies_settles failed cb
  | cons reply rest ih =>
      intro ac ac' h
      obtain ⟨q, hq, hrest⟩ := Option.bind_eq_some_iff.mp h
      have hturn := processReply_settles hq
      cases q with
      | next cb' ac₁ => exact hturn.settles (ih cb' ac₁ ac' hrest)
      | done ac₁ => exact Or.inl (Option.some.inj hrest ▸ hturn)

theorem readConnected_settles (data : Except RedisErr (List ReplyTree × Option RedisErr)) :
    Within Settles (AsyncContext.readConnected script data) := by
  intro ac ac' h
  unfold AsyncContext.readConnected at h
  split at h
  · exact Or.inl (AsyncContext.asyncDisconnect_freed h)
  · split at h
    · exact Or.inl (AsyncContext.asyncDisconnect_freed h)
    · exact processReplies_settles _ _ _ ac ac' h

/-- A call from outside of any callback. -/
theorem perform_settles (call : ApiCall) : Within Settles (AsyncContext.perform script call) := by
  intro ac ac' h
  cases call with
  | command fn privdata cmd => exact Or.inr (asyncCommand_accounted fn privdata cmd ac ac' h)
  | disconnect =>
      simp only [AsyncContext.perform, AsyncContext.performWith,
        AsyncContext.disconnectWith] at h
      split at h
      · exact Or.inl (AsyncContext.asyncDisconnect_freed h)
      · exact Or.inr (Option.some.inj h ▸ .of_eq rfl rfl rfl)
  | free =>
      simp only [AsyncContext.perform, AsyncContext.performWith, AsyncContext.freeWith] at h
      split at h
      · exact Or.inr (Option.some.inj h ▸ .of_eq rfl rfl rfl)
      · exact Or.inl (AsyncContext.asyncFree_freed h)

theorem connectCalls_accounted (calls : List ApiCall) :
    Within Accounted (AsyncContext.connectCalls script calls) := by
  refine Within.foldlM (fun call ac ac' h ↦ ?_) calls
  obtain ⟨hperform, hlive⟩ := Option.filter_eq_some_iff.mp h
  exact (perform_settles call ac ac' hperform).resolve_left (by simpa using hlive)

theorem notifyConnectWith_accounted (status : Status) (calls : List ApiCall) :
    Within Accounted (AsyncContext.notifyConnectWith script status calls) := by
  intro ac ac' h
  unfold AsyncContext.notifyConnectWith at h
  split at h
  · exact (Accounted.record ac (.onConnect status)).trans (connectCalls_accounted calls _ _ h)
  · exact Option.some.inj h ▸ .refl ac

/-- A connect check that succeeds leaves the context live. -/
theorem asyncHandleConnectWith_live {ac ac' : AsyncContext} {check : SocketCheck}
    {calls : List ApiCall} (hlive : ac.freed = false)
    (h : ac.asyncHandleConnectWith script check calls = some (.ok, ac')) : ac'.freed = false := by
  have hcalls : ∀ {calls : List ApiCall} {ac : AsyncContext}, ac.freed = false →
      ac.connectCalls script calls = some ac' → ac'.freed = false := by
    intro calls
    induction calls with
    | nil => exact fun hlive hcalls ↦ Option.some.inj hcalls ▸ hlive
    | cons call calls ih =>
        intro ac _ hcalls
        rw [AsyncContext.connectCalls, List.foldlM_cons] at hcalls
        obtain ⟨ac₁, hcall, hrest⟩ := Option.bind_eq_some_iff.mp hcalls
        exact ih (by simpa using (Option.filter_eq_some_iff.mp hcall).2) hrest
  cases check with
  | inProgress => exact (Prod.mk.inj (Option.some.inj h)).2 ▸ hlive
  | failed =>
      obtain ⟨ac₁, -, hpair⟩ := Option.map_eq_some_iff.mp h
      cases hpair
  | connected =>
      obtain ⟨ac₁, hnotify, hpair⟩ := Option.map_eq_some_iff.mp h
      cases hpair
      unfold AsyncContext.notifyConnectWith at hnotify
      split at hnotify
      · refine hcalls ?_ hnotify
        exact hlive
      · exact Option.some.inj hnotify ▸ hlive

theorem asyncHandleConnectWith_settles {ac : AsyncContext} {check : SocketCheck}
    {calls : List ApiCall} {q : Status × AsyncContext}
    (hq : ac.asyncHandleConnectWith script check calls = some q) : Settles ac q.2 := by
  cases check with
  | inProgress =>
      obtain rfl := Option.some.inj hq
      exact Or.inr (.of_eq rfl rfl rfl)
  | failed =>
      obtain ⟨ac', hbind, rfl⟩ := Option.map_eq_some_iff.mp hq
      obtain ⟨ac₁, -, hdisconnect⟩ := Option.bind_eq_some_iff.mp hbind
      exact Or.inl (AsyncContext.asyncDisconnect_freed hdisconnect)
  | connected =>
      obtain ⟨ac', hnotify, rfl⟩ := Option.map_eq_some_iff.mp hq
      have hmarked : Accounted ac
          { ac with flags := { ac.flags with connected := true } } := .of_eq rfl rfl rfl
      exact Or.inr (hmarked.trans (notifyConnectWith_accounted _ _ _ _ hnotify))

/-! ## No output gets stuck -/

/-- A context is freed; or the record agrees with the loop, and once there is a
connect callback, output comes with write interest. -/
def Flowing (s : Attached) : Prop :=
  s.ac.freed = true ∨
    s.e.Agrees ∧ (s.ac.onConnect = true → s.ac.obuf = [] ∨ s.e.writing = true)

theorem foldl_addWrite (cbs : List RedisCallback) {e : AeEvents} (h : e.Agrees) :
    (cbs.foldl (fun e _ ↦ e.redisAeAddWrite) e).Agrees ∧
      (cbs ≠ [] ∨ e.writing = true →
        (cbs.foldl (fun e _ ↦ e.redisAeAddWrite) e).writing = true) := by
  induction cbs generalizing e with
  | nil => exact ⟨h, fun hor ↦ hor.resolve_left fun hne ↦ hne rfl⟩
  | cons cb cbs ih =>
      obtain ⟨hagrees, hwriting⟩ := ih h.addWrite
      exact ⟨hagrees, fun _ ↦ hwriting (Or.inr (AeEvents.addWrite_writing e))⟩

theorem Flowing.became {s : Attached} (h : Flowing s) (hlive : s.ac.freed = false)
    {ac : AsyncContext} (hac : Settles s.ac ac) : Flowing (s.became ac) := by
  rcases hac with hfreed | ⟨⟨es, htrace, hsame⟩, honConnect⟩
  · exact Or.inl hfreed
  by_cases hfreed : ac.freed = true
  · exact Or.inl hfreed
  obtain ⟨hagrees, hwriting⟩ := h.resolve_left (by simp [hlive])
  have hsince : acceptedSince s.ac ac = accepted es := by
    simp only [acceptedSince, htrace, accepted_append, List.drop_left']
  obtain ⟨hagrees', hwriting'⟩ := foldl_addWrite (accepted es) hagrees
  refine Or.inr ?_
  simp only [Attached.became, if_neg hfreed, hsince]
  refine ⟨hagrees', fun hset ↦ ?_⟩
  by_cases hnone : accepted es = []
  · exact (hwriting (honConnect ▸ hset)).imp (hsame hnone).trans fun hw ↦ hwriting' (Or.inr hw)
  · exact Or.inr (hwriting' (Or.inl hnone))

theorem Flowing.addRead {s : Attached} (h : Flowing s) :
    Flowing ⟨s.ac, s.e.redisAeAddRead⟩ := by
  refine h.imp_right fun ⟨hagrees, hwriting⟩ ↦ ⟨hagrees.addRead, ?_⟩
  simpa using hwriting

theorem Flowing.readConnected {s s' : Attached} (h : Flowing s) (hlive : s.ac.freed = false)
    {data : Except RedisErr (List ReplyTree × Option RedisErr)}
    (hread : s.readConnected script data = some s') : Flowing s' := by
  obtain ⟨ac, hac, rfl⟩ := Option.map_eq_some_iff.mp hread
  have hsettles : Settles s.ac ac := readConnected_settles data s.ac ac hac
  split
  · exact h.addRead.became hlive hsettles
  · exact h.became hlive hsettles

/-- Write interest is removed when all is written. -/
theorem Flowing.writeConnected {s s' : Attached} (h : Flowing s) (hlive : s.ac.freed = false)
    {written : Except RedisErr ℕ} (hwrite : s.writeConnected script written = some s') :
    Flowing s' := by
  obtain ⟨ac, hac, rfl⟩ := Option.map_eq_some_iff.mp hwrite
  obtain ⟨hagrees, -⟩ := h.resolve_left (by simp [hlive])
  by_cases hfreed : ac.freed = true
  · rw [if_pos hfreed]
    exact Or.inl hfreed
  · rw [if_neg hfreed]
    by_cases hdone : ac.obuf = []
    · rw [if_neg (not_not.mpr hdone)]
      exact Flowing.addRead (s := ⟨ac, _⟩) (Or.inr ⟨hagrees.delWrite, fun _ ↦ Or.inl hdone⟩)
    · rw [if_pos hdone]
      exact Flowing.addRead (s := ⟨ac, _⟩)
        (Or.inr ⟨hagrees.addWrite, fun _ ↦ Or.inr (AeEvents.addWrite_writing s.e)⟩)

theorem Flowing.whenConnected {s s' : Attached} (h : Flowing s) (hlive : s.ac.freed = false)
    {check : SocketCheck} {calls : List ApiCall} {handle : Attached → Option Attached}
    (hhandle : ∀ {s s' : Attached}, Flowing s → s.ac.freed = false → handle s = some s' →
      Flowing s')
    (hwhen : s.whenConnected script check calls handle = some s') : Flowing s' := by
  unfold Attached.whenConnected at hwhen
  split at hwhen
  · exact hhandle h hlive hwhen
  · obtain ⟨⟨status, ac⟩, hconnect, hrest⟩ := Option.bind_eq_some_iff.mp hwhen
    have hbecame := h.became hlive (asyncHandleConnectWith_settles hconnect)
    cases status with
    | err => exact Option.some.inj hrest ▸ hbecame
    | ok =>
        simp only at hrest
        split at hrest
        · exact hhandle hbecame (asyncHandleConnectWith_live hlive hconnect) hrest
        · exact Option.some.inj hrest ▸ hbecame

theorem Flowing.step {s s' : Attached} (h : Flowing s) (hlive : s.ac.freed = false)
    {input : Input} (hstep : s.step script input = some s') : Flowing s' := by
  cases input with
  | life input =>
      cases input with
      | call c =>
          obtain ⟨ac, hac, rfl⟩ := Option.map_eq_some_iff.mp hstep
          exact h.became hlive (perform_settles c s.ac ac hac)
      | readable check calls data =>
          exact h.whenConnected hlive (fun hs hl hread ↦ hs.readConnected hl hread) hstep
      | writable check calls written =>
          exact h.whenConnected hlive (fun hs hl hwrite ↦ hs.writeConnected hl hwrite) hstep
  | setConnectCallback =>
      obtain rfl := Option.some.inj hstep
      unfold Attached.redisAsyncSetConnectCallback
      split
      · exact h
      · exact h.imp_right fun ⟨hagrees, _⟩ ↦
          ⟨hagrees.addWrite, fun _ ↦ Or.inr (AeEvents.addWrite_writing s.e)⟩

/-- Until it is torn down, a context with a connect callback has no output or is
watched for being writable. -/
theorem obuf_writable {s : Attached} (hs : (attached script).Reachable s)
    (hcallback : s.ac.onConnect = true) (hlive : s.ac.freed = false) :
    s.ac.obuf = [] ∨ s.e.writable = true := by
  have hflowing : Flowing s := by
    refine Machine.Reach.invariant ?_ ?_ hs
    · rintro s ⟨ac, hnone, rfl⟩
      exact Or.inr ⟨rfl, fun hset ↦ by simp [hnone] at hset⟩
    · intro s input s' hflowing _ hstep
      simp only [attached] at hstep
      split at hstep
      · simp at hstep
      · rename_i hlive
        exact hflowing.step (eq_false_of_ne_true hlive) hstep
  obtain ⟨hagrees, hwriting⟩ := hflowing.resolve_left (by simp [hlive])
  rw [hagrees]
  exact hwriting hcallback

/-- The connect callback issues a command, and the write takes only a part. -/
theorem obuf_writable_ping :
    ∃ s : Attached, s.ac.obuf = [71, 13, 10] ∧ (s.ac.obuf = [] ∨ s.e.writable = true) := by
  let ping : List UInt8 := [42, 49, 13, 10, 36, 52, 13, 10, 80, 73, 78, 71, 13, 10]
  have hstart : (attached fun _ ↦ []).Reachable
      ⟨.redisAsyncInitialize none false false, .attach⟩ := .start ⟨_, rfl, rfl⟩
  obtain ⟨s, hrun, hs⟩ := Machine.run_spec (attached fun _ ↦ [])
    ⟨.redisAsyncInitialize none false false, .attach⟩
    [.setConnectCallback, .life (.writable .connected [.command (some 1) 0 ping] (.ok 11))]
    (fun s ↦ decide (s.ac.obuf = [71, 13, 10] ∧ s.ac.onConnect = true ∧ s.ac.freed = false))
    (by decide +kernel)
  obtain ⟨hobuf, hcallback, hlive⟩ := of_decide_eq_true hs
  exact ⟨s, hobuf, obuf_writable (hstart.run hrun) hcallback hlive⟩

end Script

end Attached

end MuxHiredis
