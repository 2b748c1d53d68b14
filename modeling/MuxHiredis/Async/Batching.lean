import MuxHiredis.Async.Growth
import MuxHiredis.Async.Ledger

/-!
# Batches of replies

`redisProcessCallbacks` keeps the callback record of one reply while it looks
for that of the next.  A lookup that finds nothing leaves the record as it was,
so a reply can go to the callback of the reply before it, if both are processed
in one call.  A call also ends a context that is at its cue to disconnect, with
the replies that were cut off.  These are the only ways in which the cuts between
calls are seen.
-/

namespace MuxHiredis

namespace AsyncContext

section Script

variable (script : ℕ → List ApiCall)

/-- The loop of `redisProcessCallbacks` up to the end of the replies. -/
def processLoop : List ReplyTree → RedisCallback → AsyncContext → Option Processed
  | [], cb, ac => some (.next cb ac)
  | reply :: rest, cb, ac =>
      (ac.processReply script cb reply).bind fun
        | .next cb ac => processLoop rest cb ac
        | .done ac => some (.done ac)

/-- The replies are processed in several calls, as long as the context is
there. -/
def processBatches : List (List ReplyTree) → AsyncContext → Option AsyncContext
  | [], ac => some ac
  | batch :: batches, ac =>
      if ac.freed then some ac
      else (ac.redisProcessCallbacks script batch none).bind (processBatches batches)

end Script

/-- The cue to really disconnect, once there are no more replies. -/
def AtCue (ac : AsyncContext) : Prop :=
  ac.flags.disconnecting = true ∧ ac.obuf = [] ∧ ac.replies = []

/-- The lookup of the reply finds nothing: no regular callback is pending, and
the subscription table or the list of invalid commands has none either. -/
def Unknown (ac : AsyncContext) (reply : ReplyTree) : Prop :=
  ac.replies = [] ∧ ac.flags.subscribed = true ∧
    match reply with
    | .error _ => False
    | .array (.string stype :: .string sname :: _) =>
        (ac.callbacks (isPattern stype)).lookup sname = none
    | .array _ => False
    | _ => ac.invalid = []

/-- No callback issues MONITOR. -/
def NoMonitor (script : ℕ → List ApiCall) : Prop :=
  ∀ n fn privdata cmd, .command fn privdata cmd ∈ script n → commandKind cmd ≠ some .monitor

/-! ## Looking for a callback -/

/-- An unknown reply is left with the record there is. -/
theorem pickCallback_unknown {ac : AsyncContext} {reply : ReplyTree} (h : ac.Unknown reply)
    (cb : RedisCallback) : ac.pickCallback cb reply = some (.run cb ac) := by
  obtain ⟨hreplies, hsub, hlookup⟩ := h
  have hshift : ac.shiftReplies = none := by simp only [shiftReplies, hreplies]
  have hinvalid : ac.invalid = [] → ac.shiftInvalid = none := by
    intro hi
    simp only [shiftInvalid, hi]
  unfold pickCallback
  rw [hshift]
  cases reply with
  | error line => exact hlookup.elim
  | array elements =>
      simp only [hsub, if_true]
      match elements, hlookup with
      | .string stype :: .string sname :: rest, hlookup =>
          simp only [getSubscribeCallback, hlookup, Option.map_some]
  | status line | integer value | string bytes | nil =>
      simp only [hsub, if_true, getSubscribeCallback, hinvalid hlookup, Option.getD_none,
        Option.map_some]

/-- Any other reply overwrites the record, or ends the loop. -/
theorem pickCallback_known {ac : AsyncContext} {reply : ReplyTree} (h : ¬ac.Unknown reply)
    (hmon : ac.flags.monitoring = false) (cb cb' : RedisCallback) :
    ac.pickCallback cb reply = ac.pickCallback cb' reply := by
  unfold pickCallback
  cases hreplies : ac.replies with
  | cons c rest => simp only [shiftReplies, hreplies]
  | nil =>
      have hshift : ac.shiftReplies = none := by simp only [shiftReplies, hreplies]
      rw [hshift]
      by_cases hsub : ac.flags.subscribed = true
      · cases reply with
        | error line => rfl
        | array elements =>
            simp only [hsub, if_true, getSubscribeCallback]
            split
            · rename_i stype sname rest
              cases hl : (ac.callbacks (isPattern stype)).lookup sname with
              | none => exact (h ⟨hreplies, hsub, hl⟩).elim
              | some c => rfl
            · rfl
        | status line | integer value | string bytes | nil =>
            simp only [hsub, if_true, getSubscribeCallback]
            cases hi : ac.invalid with
            | nil => exact (h ⟨hreplies, hsub, hi⟩).elim
            | cons c rest => simp only [shiftInvalid, hi, Option.getD_some]
      · cases reply <;> simp only [hsub, hmon, Bool.false_eq_true, if_false]

/-! ## What a turn of the loop keeps -/

/-- The context is there, no callback is running, and it does not monitor. -/
structure Steady (ac : AsyncContext) : Prop where
  live : ac.freed = false
  monitoring : ac.flags.monitoring = false

theorem Steady.subscribeTo {ac : AsyncContext} (h : ac.Steady) (pattern : Bool)
    (cb : RedisCallback) (name : List UInt8) : (ac.subscribeTo pattern cb name).Steady := by
  unfold AsyncContext.subscribeTo
  split <;> exact ⟨h.1, h.2⟩

theorem Steady.subscribeAll {ac : AsyncContext} (h : ac.Steady) (pattern : Bool)
    (cb : RedisCallback) (names : List (List UInt8)) :
    (names.foldl (fun ac name ↦ ac.subscribeTo pattern cb name) ac).Steady := by
  induction names generalizing ac with
  | nil => exact h
  | cons name names ih => exact ih (h.subscribeTo pattern cb name)

theorem Steady.registerCallback {ac ac' : AsyncContext} (h : ac.Steady) {kind : CommandKind}
    (hkind : kind ≠ .monitor) {cb : RedisCallback}
    (hreg : ac.registerCallback kind cb = some ac') : ac'.Steady := by
  cases kind with
  | subscribe pattern names =>
      rw [AsyncContext.registerCallback, Option.some.injEq] at hreg
      have hsubscribed : ({ ac with flags := { ac.flags with subscribed := true } } :
          AsyncContext).Steady := ⟨h.1, h.2⟩
      have hs := hsubscribed.subscribeAll pattern cb names
      exact hreg ▸ ⟨hs.1, hs.2⟩
  | unsubscribe =>
      simp only [AsyncContext.registerCallback] at hreg
      split at hreg
      · exact Option.some.inj hreg ▸ h
      · simp at hreg
  | monitor => exact (hkind rfl).elim
  | regular =>
      simp only [AsyncContext.registerCallback] at hreg
      split at hreg <;> exact Option.some.inj hreg ▸ ⟨h.1, h.2⟩

theorem Steady.asyncCommand {ac : AsyncContext} (h : ac.Steady) {fn : Option ℕ} {privdata : ℕ}
    {cmd : List UInt8} (hcmd : commandKind cmd ≠ some .monitor) {p : Status × AsyncContext}
    (hp : ac.asyncCommand fn privdata cmd = some p) : p.2.Steady := by
  unfold AsyncContext.asyncCommand at hp
  split at hp
  · exact Option.some.inj hp ▸ h
  · obtain ⟨kind, hk, rfl⟩ := Option.map_eq_some_iff.mp hp
    cases hreg : ac.registerCallback kind ⟨fn, privdata⟩ with
    | none => exact h
    | some ac' =>
        have hkind : kind ≠ .monitor := by
          rintro rfl
          exact hcmd hk
        have hs := h.registerCallback hkind hreg
        exact ⟨hs.1, hs.2⟩

theorem Steady.performInside {ac ac' : AsyncContext} (h : ac.Steady) {call : ApiCall}
    (hcall : ∀ fn privdata cmd, call = .command fn privdata cmd →
      commandKind cmd ≠ some .monitor)
    (hperform : AsyncContext.performInside call ac = some ac') : ac'.Steady := by
  cases call with
  | command fn privdata cmd =>
      obtain ⟨p, hp, rfl⟩ := Option.map_eq_some_iff.mp hperform
      exact h.asyncCommand (hcall _ _ _ rfl) hp
  | disconnect =>
      simp only [AsyncContext.performInside, performWith, disconnectWith, ite_self,
        Option.some.injEq] at hperform
      exact hperform ▸ ⟨h.1, h.2⟩
  | free =>
      simp only [AsyncContext.performInside, performWith, freeWith, ite_self,
        Option.some.injEq] at hperform
      exact hperform ▸ ⟨h.1, h.2⟩

section Script

variable {script : ℕ → List ApiCall}

theorem Steady.runCallback (hscript : NoMonitor script) {ac ac' : AsyncContext} (h : ac.Steady)
    {cb : RedisCallback} {reply : Option ReplyTree}
    (hrun : ac.runCallback script cb reply = some ac') : ac'.Steady := by
  have hfold : ∀ (calls : List ApiCall), (∀ fn privdata cmd,
      .command fn privdata cmd ∈ calls → commandKind cmd ≠ some .monitor) →
      ∀ ac ac' : AsyncContext, ac.Steady →
        calls.foldlM (fun ac call ↦ AsyncContext.performInside call ac) ac = some ac' →
        ac'.Steady := by
    intro calls
    induction calls with
    | nil =>
        intro _ ac ac' h hfold
        exact Option.some.inj hfold ▸ h
    | cons call calls ih =>
        intro hcalls ac ac' h hfold
        rw [List.foldlM_cons] at hfold
        obtain ⟨ac₁, hcall, hrest⟩ := Option.bind_eq_some_iff.mp hfold
        refine ih (fun fn privdata cmd hmem ↦ hcalls fn privdata cmd (by simp [hmem])) ac₁ ac' ?_
          hrest
        refine h.performInside ?_ hcall
        rintro fn privdata cmd rfl
        exact hcalls fn privdata cmd (by simp)
  unfold AsyncContext.runCallback at hrun
  cases hfn : cb.fn with
  | none =>
      rw [hfn] at hrun
      exact Option.some.inj hrun ▸ h
  | some fn =>
      rw [hfn] at hrun
      obtain ⟨ac₁, hcalls, rfl⟩ := Option.map_eq_some_iff.mp hrun
      have hs : ac₁.Steady := by
        refine hfold _ (hscript _) _ ac₁ ?_ hcalls
        exact ⟨h.1, h.2⟩
      exact ⟨hs.1, hs.2⟩

theorem Steady.pickCallback {ac ac' : AsyncContext} (h : ac.Steady) {reply : ReplyTree}
    {cb cb' : RedisCallback} (hpick : ac.pickCallback cb reply = some (.run cb' ac')) :
    ac'.Steady := by
  have hinvalid : ∀ {cb}, ac.shiftInvalid = some (cb, ac') → ac'.Steady := by
    intro cb hs
    unfold shiftInvalid at hs
    split at hs
    · simp at hs
    · cases hs
      exact ⟨h.1, h.2⟩
  unfold AsyncContext.pickCallback at hpick
  split at hpick
  · rename_i hs
    cases hpick
    unfold shiftReplies at hs
    split at hs
    · simp at hs
    · cases hs
      exact ⟨h.1, h.2⟩
  · split at hpick
    · simp at hpick
    · split at hpick
      · obtain ⟨p, hp, hrun⟩ := Option.map_eq_some_iff.mp hpick
        cases hrun
        rcases getSubscribeCallback_cases hp with ⟨-, hac⟩ | ⟨pattern, name, -, hac | ⟨n, hac⟩⟩ | hs
        · exact hac ▸ h
        · exact hac ▸ h
        · rw [hac]
          unfold unsubscribed
          split <;> split <;> exact ⟨h.1, h.2⟩
        · exact hinvalid hs
      · split at hpick
        · cases hpick
          exact h
        · simp at hpick

/-- The loop goes on in a steady context, or the context is freed. -/
def Processed.Sound : Processed → Prop
  | .next _ ac => ac.Steady
  | .done ac => ac.freed = true

theorem asyncFree_freed {ac ac' : AsyncContext} (h : ac.asyncFree script = some ac') :
    ac'.freed = true := by
  obtain ⟨ac₁, -, hend⟩ := Option.bind_eq_some_iff.mp h
  obtain ⟨ac₂, -, rfl⟩ := Option.map_eq_some_iff.mp hend
  rfl

theorem asyncDisconnect_freed {ac ac' : AsyncContext}
    (h : ac.asyncDisconnect script = some ac') : ac'.freed = true := by
  simp only [asyncDisconnect] at h
  split at h
  · split at h
    · exact asyncFree_freed h
    · simp at h
  · exact asyncFree_freed h

theorem processReply_steady (hscript : NoMonitor script) {ac : AsyncContext} (h : ac.Steady)
    {cb : RedisCallback} {reply : ReplyTree} {p : Processed}
    (hp : ac.processReply script cb reply = some p) :
    p.Sound := by
  have hrec : (ac.record (.reply reply)).Steady := ⟨h.1, h.2⟩
  simp only [processReply] at hp
  split at hp
  · simp at hp
  · obtain ⟨ac', hdis, rfl⟩ := Option.map_eq_some_iff.mp hp
    exact asyncDisconnect_freed hdis
  · rename_i cb' ac₁ hpick
    have hs := hrec.pickCallback hpick
    split at hp
    · exact Option.some.inj hp ▸ hs
    · obtain ⟨ac₂, hrun, hrest⟩ := Option.bind_eq_some_iff.mp hp
      split at hrest
      · obtain ⟨ac₃, hfree, rfl⟩ := Option.map_eq_some_iff.mp hrest
        exact asyncFree_freed hfree
      · exact Option.some.inj hrest ▸ hs.runCallback hscript hrun

theorem processLoop_steady (hscript : NoMonitor script) {ac : AsyncContext} (h : ac.Steady)
    {replies : List ReplyTree} {cb : RedisCallback} {p : Processed}
    (hp : processLoop script replies cb ac = some p) :
    p.Sound := by
  induction replies generalizing ac cb with
  | nil => exact Option.some.inj hp ▸ h
  | cons reply rest ih =>
      obtain ⟨q, hq, hrest⟩ := Option.bind_eq_some_iff.mp hp
      have hturn := processReply_steady hscript h hq
      cases q with
      | next cb' ac' => exact ih hturn hrest
      | done ac' => exact Option.some.inj hrest ▸ hturn

theorem processReplies_eq (replies : List ReplyTree) (failed : Option RedisErr)
    (cb : RedisCallback) (ac : AsyncContext) :
    ac.processReplies script replies failed cb =
      (processLoop script replies cb ac).bind fun
        | .next cb ac => ac.endOfReplies script failed cb
        | .done ac => some ac := by
  induction replies generalizing cb ac with
  | nil => rfl
  | cons reply rest ih =>
      simp only [processReplies, processLoop, Option.bind_assoc]
      congr 1
      funext p
      cases p with
      | next cb' ac' => exact ih cb' ac'
      | done ac' => rfl

theorem processLoop_append (replies rest : List ReplyTree) (cb : RedisCallback)
    (ac : AsyncContext) :
    processLoop script (replies ++ rest) cb ac =
      (processLoop script replies cb ac).bind fun
        | .next cb ac => processLoop script rest cb ac
        | .done ac => some (.done ac) := by
  induction replies generalizing cb ac with
  | nil => rfl
  | cons reply replies ih =>
      simp only [List.cons_append, processLoop, Option.bind_assoc]
      congr 1
      funext p
      cases p with
      | next cb' ac' => exact ih cb' ac'
      | done ac' => rfl

/-- Outside of monitor mode the record is not used at the end of the replies. -/
theorem endOfReplies_record {ac : AsyncContext} (h : ac.Steady) (failed : Option RedisErr)
    (cb cb' : RedisCallback) :
    ac.endOfReplies script failed cb = ac.endOfReplies script failed cb' := by
  simp only [endOfReplies, h.monitoring, Bool.false_eq_true, if_false]

/-- A context that is not at its cue stays as it is when the replies end. -/
theorem endOfReplies_uncued {ac : AsyncContext} (h : ac.Steady) (hcue : ¬ac.AtCue)
    (cb : RedisCallback) : ac.endOfReplies script none cb = some ac := by
  simp only [endOfReplies, h.monitoring, Bool.false_eq_true, if_false]
  exact if_neg hcue

/-! ## The record only matters when it is stale -/

/-- Results of the loop that differ at most in a record without a callback. -/
inductive Alike : Option Processed → Option Processed → Prop
  | refl (r : Option Processed) : Alike r r
  | null {cb cb' : RedisCallback} (ac : AsyncContext) (h : cb.fn = none) (h' : cb'.fn = none) :
      Alike (some (.next cb ac)) (some (.next cb' ac))

theorem processReply_known {ac : AsyncContext} (h : ac.Steady) {reply : ReplyTree}
    (hknown : ¬ac.Unknown reply) (cb cb' : RedisCallback) :
    ac.processReply script cb reply = ac.processReply script cb' reply := by
  have hpick : (ac.record (.reply reply)).pickCallback cb reply =
      (ac.record (.reply reply)).pickCallback cb' reply :=
    pickCallback_known (show ¬(ac.record (.reply reply)).Unknown reply from hknown) h.monitoring
      cb cb'
  simp only [processReply, hpick]

theorem processReply_unknown {ac : AsyncContext} {reply : ReplyTree} (hunknown : ac.Unknown reply)
    {cb : RedisCallback} (hcb : cb.fn = none) :
    ac.processReply script cb reply = some (.next cb (ac.record (.reply reply))) := by
  have hpick : (ac.record (.reply reply)).pickCallback cb reply =
      some (.run cb (ac.record (.reply reply))) :=
    pickCallback_unknown (show (ac.record (.reply reply)).Unknown reply from hunknown) cb
  simp only [processReply, hpick, if_pos hcb]

/-- Two records without a callback are as good as one. -/
theorem processLoop_alike {ac : AsyncContext} (h : ac.Steady)
    {cb cb' : RedisCallback} (hcb : cb.fn = none) (hcb' : cb'.fn = none)
    (replies : List ReplyTree) :
    Alike (processLoop script replies cb ac) (processLoop script replies cb' ac) := by
  induction replies generalizing ac with
  | nil => exact .null ac hcb hcb'
  | cons reply rest ih =>
      simp only [processLoop]
      by_cases hun : ac.Unknown reply
      · rw [processReply_unknown hun hcb, processReply_unknown hun hcb']
        exact ih ⟨h.1, h.2⟩
      · rw [processReply_known h hun cb cb']
        exact .refl _

/-- Whenever the loop comes to an unknown reply, no callback is left in the
record. -/
def NeverStale (script : ℕ → List ApiCall) (replies : List ReplyTree) (cb : RedisCallback)
    (ac : AsyncContext) : Prop :=
  ∀ before reply after cb' ac', replies = before ++ reply :: after →
    processLoop script before cb ac = some (.next cb' ac') →
    ac'.Unknown reply → cb'.fn = none

theorem NeverStale.mono {replies replies' : List ReplyTree} {cb : RedisCallback}
    {ac : AsyncContext} (h : NeverStale script replies' cb ac) (hinit : replies <+: replies') :
    NeverStale script replies cb ac := by
  obtain ⟨rest, rfl⟩ := hinit
  intro before reply after cb' ac' hsplit
  exact h before reply (after ++ rest) cb' ac' (by rw [hsplit]; simp)

theorem NeverStale.rest {replies rest : List ReplyTree} {cb cb' : RedisCallback}
    {ac ac' : AsyncContext} (h : NeverStale script (replies ++ rest) cb ac)
    (hloop : processLoop script replies cb ac = some (.next cb' ac')) :
    NeverStale script rest cb' ac' := by
  intro before reply after cb'' ac'' hsplit hbefore
  refine h (replies ++ before) reply after cb'' ac'' (by rw [hsplit, List.append_assoc]) ?_
  rw [processLoop_append, hloop, Option.bind_some]
  exact hbefore

/-- A call does not need the record. -/
theorem NeverStale.alike {ac : AsyncContext} (h : ac.Steady)
    {replies : List ReplyTree} (hne : replies ≠ []) {cb : RedisCallback}
    (hstale : NeverStale script replies cb ac) :
    Alike (processLoop script replies cb ac) (processLoop script replies .null ac) := by
  cases replies with
  | nil => exact (hne rfl).elim
  | cons reply rest =>
      by_cases hun : ac.Unknown reply
      · have hcb : cb.fn = none := hstale [] reply rest cb ac rfl rfl hun
        exact processLoop_alike h hcb rfl _
      · simp only [processLoop]
        rw [processReply_known h hun cb .null]
        exact .refl _

theorem NeverStale.null {ac : AsyncContext} (h : ac.Steady)
    {replies : List ReplyTree} {cb : RedisCallback}
    (hstale : NeverStale script replies cb ac) : NeverStale script replies .null ac := by
  intro before reply after cb' ac' hsplit hloop hun
  cases hb : before with
  | nil =>
      subst hb
      cases hloop
      rfl
  | cons b bs =>
      have halike := NeverStale.alike h (hb ▸ List.cons_ne_nil b bs)
        (hstale.mono ⟨reply :: after, hsplit.symm⟩)
      rw [hloop] at halike
      cases hl : processLoop script before cb ac with
      | none =>
          rw [hl] at halike
          cases halike
      | some p =>
          rw [hl] at halike
          cases halike with
          | refl => exact hstale before reply after cb' ac' hsplit hl hun
          | null ac hcb hcb' => exact hcb'

theorem Alike.endOfReplies {r r' : Option Processed} (h : Alike r r')
    (hsound : ∀ p, r = some p → p.Sound) (failed : Option RedisErr) :
    (r.bind fun
      | .next cb ac => ac.endOfReplies script failed cb
      | .done ac => some ac) =
    r'.bind fun
      | .next cb ac => ac.endOfReplies script failed cb
      | .done ac => some ac := by
  cases h with
  | refl => rfl
  | null ac hcb hcb' => exact endOfReplies_record (hsound _ rfl) failed _ _

theorem NeverStale.processReplies_eq (hscript : NoMonitor script) {ac : AsyncContext}
    (h : ac.Steady) {replies : List ReplyTree} {cb : RedisCallback}
    (hstale : NeverStale script replies cb ac) (failed : Option RedisErr) :
    ac.processReplies script replies failed cb =
      ac.processReplies script replies failed .null := by
  by_cases hne : replies = []
  · subst hne
    exact endOfReplies_record h failed cb .null
  · rw [AsyncContext.processReplies_eq, AsyncContext.processReplies_eq]
    exact (NeverStale.alike h hne hstale).endOfReplies
      (fun p hp ↦ processLoop_steady hscript h hp) failed

end Script

/-! ## The end of a context at its cue -/

/-- The runs of callbacks with a `NULL` reply. -/
def nullRuns (cbs : List RedisCallback) : List Invocation :=
  cbs.filterMap fun cb ↦ cb.fn.map fun fn ↦ (fn, cb.privdata, none)

/-- What `__redisAsyncFree` runs for the subscriptions. -/
def endings (ac : AsyncContext) : List Invocation :=
  nullRuns ac.invalid ++ nullRuns (ac.channels.entries.map (·.2)) ++
    nullRuns (ac.patterns.entries.map (·.2))

theorem nullRuns_append (cbs cbs' : List RedisCallback) :
    nullRuns (cbs ++ cbs') = nullRuns cbs ++ nullRuns cbs' := List.filterMap_append

theorem nullRuns_cons (cb : RedisCallback) (cbs : List RedisCallback) :
    nullRuns (cb :: cbs) = nullRuns [cb] ++ nullRuns cbs := nullRuns_append [cb] cbs

theorem nullRuns_null {cb : RedisCallback} (h : cb.fn = none) : nullRuns [cb] = [] := by
  simp [nullRuns, h]

theorem mem_nullRuns {cbs : List RedisCallback} {i : Invocation} (h : i ∈ nullRuns cbs) :
    i.2.2 = none := by
  obtain ⟨cb, -, hcb⟩ := List.mem_filterMap.mp h
  obtain ⟨fn, -, rfl⟩ := Option.map_eq_some_iff.mp hcb
  rfl

theorem mem_endings {ac : AsyncContext} {i : Invocation} (h : i ∈ ac.endings) : i.2.2 = none := by
  simp only [endings, List.mem_append] at h
  rcases h with (h | h) | h
  · exact mem_nullRuns h
  · exact mem_nullRuns h
  · exact mem_nullRuns h

/-- The entry of a `NULL` callback can be deleted unseen. -/
theorem nullRuns_kerase {entries : List (Sigma fun _ : List UInt8 ↦ RedisCallback)}
    {name : List UInt8} {cb : RedisCallback} (h : entries.dlookup name = some cb)
    (hcb : cb.fn = none) :
    nullRuns ((entries.kerase name).map (·.2)) = nullRuns (entries.map (·.2)) := by
  induction entries with
  | nil => rfl
  | cons entry entries ih =>
      by_cases hname : name = entry.1
      · subst hname
        have hentry : entry.2 = cb := by
          cases entry
          simpa using h
        rw [List.kerase_cons_eq rfl, List.map_cons, nullRuns_cons, nullRuns_null (hentry ▸ hcb),
          List.nil_append]
      · rw [List.dlookup_cons_ne entries entry hname] at h
        rw [List.kerase_cons_ne hname, List.map_cons, List.map_cons, nullRuns_cons, ih h,
          ← nullRuns_cons]

/-- From `ac` to `ac'`, which is closing, callbacks were run and nothing was
issued. -/
structure Ran (ac : AsyncContext) (runs : List Invocation) (ac' : AsyncContext) : Prop where
  invocations : invocations ac'.trace = invocations ac.trace ++ runs
  closing : ac'.flags.closing = true
  invalid : ac'.invalid = ac.invalid
  channels : ac'.channels = ac.channels
  patterns : ac'.patterns = ac.patterns

theorem Ran.refl {ac : AsyncContext} (h : ac.flags.closing = true) : Ran ac [] ac :=
  ⟨by simp, h, rfl, rfl, rfl⟩

theorem Ran.trans {ac₁ ac₂ ac₃ : AsyncContext} {runs runs' : List Invocation}
    (h : Ran ac₁ runs ac₂) (h' : Ran ac₂ runs' ac₃) : Ran ac₁ (runs ++ runs') ac₃ := by
  refine ⟨?_, h'.closing, h'.invalid.trans h.invalid, h'.channels.trans h.channels,
    h'.patterns.trans h.patterns⟩
  rw [h'.invocations, h.invocations, List.append_assoc]

/-- In a closing context a call from a callback only sets a flag. -/
theorem performInside_closing {ac : AsyncContext} (hclosing : ac.flags.closing = true)
    (hin : ac.flags.inCallback = true) (call : ApiCall) :
    ∃ ac', performInside call ac = some ac' ∧ Ran ac [] ac' ∧ ac'.flags.inCallback = true := by
  cases call with
  | command fn privdata cmd =>
      refine ⟨ac, ?_, .refl hclosing, hin⟩
      simp [performInside, performWith, asyncCommand, hclosing]
  | disconnect =>
      refine ⟨{ ac with flags := { ac.flags with disconnecting := true } }, ?_, ?_, hin⟩
      · simp only [performInside, performWith, disconnectWith, ite_self]
      · exact ⟨by simp, by simp [Flags.closing], rfl, rfl, rfl⟩
  | free =>
      refine ⟨{ ac with flags := { ac.flags with freeing := true } }, ?_, ?_, hin⟩
      · simp only [performInside, performWith, freeWith, ite_self]
      · exact ⟨by simp, by simp [Flags.closing], rfl, rfl, rfl⟩

theorem performAll_closing (calls : List ApiCall) {ac : AsyncContext}
    (hclosing : ac.flags.closing = true) (hin : ac.flags.inCallback = true) :
    ∃ ac', calls.foldlM (fun ac call ↦ performInside call ac) ac = some ac' ∧ Ran ac [] ac' := by
  induction calls generalizing ac with
  | nil => exact ⟨ac, rfl, .refl hclosing⟩
  | cons call calls ih =>
      obtain ⟨ac₁, hcall, h₁, hin₁⟩ := performInside_closing hclosing hin call
      obtain ⟨ac₂, hcalls, h₂⟩ := ih h₁.closing hin₁
      refine ⟨ac₂, ?_, h₁.trans h₂⟩
      rw [List.foldlM_cons, hcall]
      exact hcalls

section Script

variable (script : ℕ → List ApiCall)

theorem runCallback_closing {ac : AsyncContext} (hclosing : ac.flags.closing = true)
    (cb : RedisCallback) :
    ∃ ac', ac.runCallback script cb none = some ac' ∧ Ran ac (nullRuns [cb]) ac' := by
  cases hfn : cb.fn with
  | none =>
      refine ⟨ac, ?_, nullRuns_null hfn ▸ .refl hclosing⟩
      simp only [runCallback, hfn]
  | some fn =>
      have hinside : (({ ac with flags := { ac.flags with inCallback := true } }.record
          (.run fn cb.privdata none)) : AsyncContext).flags.closing = true := hclosing
      obtain ⟨ac', hcalls, h⟩ :=
        performAll_closing (script (ac.trace.countP Event.isRun)) hinside rfl
      refine ⟨{ ac' with flags := { ac'.flags with inCallback := false } }, ?_, ?_, h.closing,
        h.invalid, h.channels, h.patterns⟩
      · simp only [runCallback, hfn, hcalls, Option.map_some]
      · simp only [h.invocations, record, invocations_append, List.append_nil]
        simp [invocations, nullRuns, hfn]

theorem runAll_closing (cbs : List RedisCallback) {ac : AsyncContext}
    (hclosing : ac.flags.closing = true) :
    ∃ ac', runAll script cbs ac = some ac' ∧ Ran ac (nullRuns cbs) ac' := by
  induction cbs generalizing ac with
  | nil => exact ⟨ac, rfl, .refl hclosing⟩
  | cons cb cbs ih =>
      obtain ⟨ac₁, hrun, h₁⟩ := runCallback_closing script hclosing cb
      obtain ⟨ac₂, hrest, h₂⟩ := ih h₁.closing
      refine ⟨ac₂, ?_, nullRuns_cons cb cbs ▸ h₁.trans h₂⟩
      rw [runAll, List.foldlM_cons, hrun]
      exact hrest

theorem drainInvalid_closing {ac : AsyncContext} (hclosing : ac.flags.closing = true) :
    ∃ ac', drainFor script shiftInvalid ac.invalid.length ac = some ac' ∧
      invocations ac'.trace = invocations ac.trace ++ nullRuns ac.invalid ∧
      ac'.flags.closing = true ∧ ac'.channels = ac.channels ∧ ac'.patterns = ac.patterns := by
  generalize hinvalid : ac.invalid = cbs
  induction cbs generalizing ac with
  | nil => exact ⟨ac, rfl, by simp [nullRuns], hclosing, rfl, rfl⟩
  | cons cb cbs ih =>
      have hshift : ac.shiftInvalid = some (cb, { ac with invalid := cbs }) := by
        simp only [shiftInvalid, hinvalid]
      have hclosing' : ({ ac with invalid := cbs } : AsyncContext).flags.closing = true := hclosing
      obtain ⟨ac₁, hrun, h₁⟩ := runCallback_closing script hclosing' cb
      obtain ⟨ac₂, hrest, hruns, hclosing₂, hchannels, hpatterns⟩ := ih h₁.closing h₁.invalid
      refine ⟨ac₂, ?_, ?_, hclosing₂, hchannels.trans h₁.channels, hpatterns.trans h₁.patterns⟩
      · rw [List.length_cons, drainFor, hshift]
        simp only [hrun, Option.bind_some]
        exact hrest
      · rw [hruns, h₁.invocations, nullRuns_cons cb cbs, List.append_assoc]

theorem notifyDisconnect_invocations (ac : AsyncContext) :
    invocations ac.notifyDisconnect.trace = invocations ac.trace := by
  unfold notifyDisconnect
  split
  · simp [record, invocations]
  · rfl

/-- A closing context without pending replies ends with its subscriptions. -/
theorem asyncFree_closing {ac : AsyncContext} (hclosing : ac.flags.closing = true)
    (hreplies : ac.replies = []) :
    ∃ ac', ac.asyncFree script = some ac' ∧ ac'.freed = true ∧
      invocations ac'.trace = invocations ac.trace ++ ac.endings := by
  have hclosing' : (ac.record .teardown).flags.closing = true := hclosing
  obtain ⟨ac₁, hinvalid, hruns₁, hclosing₁, hchannels, hpatterns⟩ :=
    drainInvalid_closing script hclosing'
  obtain ⟨ac₂, hall₂, h₂⟩ := runAll_closing script (ac₁.channels.entries.map (·.2)) hclosing₁
  obtain ⟨ac₃, hall₃, h₃⟩ := runAll_closing script (ac₂.patterns.entries.map (·.2)) h₂.closing
  refine ⟨{ ac₃.notifyDisconnect with freed := true }, ?_, rfl, ?_⟩
  · unfold asyncFree endSubscriptions
    rw [hreplies, List.length_nil, drainFor, Option.bind_some, hinvalid, Option.bind_some, hall₂,
      Option.bind_some, hall₃]
    rfl
  · show invocations ac₃.notifyDisconnect.trace = _
    rw [notifyDisconnect_invocations, h₃.invocations, h₂.invocations, hruns₁, h₂.patterns,
      hpatterns, hchannels]
    simp [endings, record, invocations]

theorem asyncDisconnect_closing {ac : AsyncContext} (hclosing : ac.flags.closing = true)
    (hreplies : ac.replies = []) :
    ∃ ac', ac.asyncDisconnect script = some ac' ∧ ac'.freed = true ∧
      invocations ac'.trace = invocations ac.trace ++ ac.endings := by
  simp only [asyncDisconnect]
  split
  · have hclosing' : ({ ac with err := ac.cErr } : AsyncContext).flags.closing = true := hclosing
    obtain ⟨ac', hfree, hfreed, hruns⟩ := asyncFree_closing script hclosing' hreplies
    split
    · exact ⟨ac', hfree, hfreed, hruns⟩
    · rename_i hpending
      simp [hreplies] at hpending
  · have hclosing' : ({ ac with
        err := ac.cErr
        flags := { ac.flags with disconnecting := true } } : AsyncContext).flags.closing =
          true := by
      simp [Flags.closing]
    obtain ⟨ac', hfree, hfreed, hruns⟩ := asyncFree_closing script hclosing' hreplies
    exact ⟨ac', hfree, hfreed, hruns⟩

end Script

/-! ## Replies after the cue -/

/-- The loop drops these replies: the callback found for each is `NULL`, up to an
error that ends the loop. -/
def Dropped : List ReplyTree → RedisCallback → AsyncContext → Prop
  | [], _, _ => True
  | reply :: rest, cb, ac =>
      match (ac.record (.reply reply)).pickCallback cb reply with
      | none => False
      | some (.disconnect _) => True
      | some (.run cb ac) => cb.fn = none ∧ Dropped rest cb ac

theorem AtCue.closing {ac : AsyncContext} (h : ac.AtCue) : ac.flags.closing = true := by
  simp [Flags.closing, h.1]

theorem endings_unsubscribed {ac : AsyncContext} {pattern : Bool} {name : List UInt8}
    {cb : RedisCallback} (hlookup : (ac.callbacks pattern).lookup name = some cb)
    (hcb : cb.fn = none) (remaining : ℤ) :
    (ac.unsubscribed pattern name remaining).endings = ac.endings := by
  cases pattern with
  | false =>
      have herase : nullRuns ((ac.channels.erase name).entries.map (·.2)) =
          nullRuns (ac.channels.entries.map (·.2)) := nullRuns_kerase hlookup hcb
      simp only [unsubscribed, Bool.false_eq_true, if_false]
      split <;> simp only [endings, herase]
  | true =>
      have herase : nullRuns ((ac.patterns.erase name).entries.map (·.2)) =
          nullRuns (ac.patterns.entries.map (·.2)) := nullRuns_kerase hlookup hcb
      simp only [unsubscribed, if_true]
      split <;> simp only [endings, herase]

/-- Finding a `NULL` callback changes nothing that the end of the context shows. -/
theorem pickCallback_null {ac ac' : AsyncContext} {reply : ReplyTree} {cb cb' : RedisCallback}
    (hcue : ac.AtCue) (hpick : ac.pickCallback cb reply = some (.run cb' ac'))
    (hcb : cb'.fn = none) : ac'.AtCue ∧ ac'.endings = ac.endings := by
  have hshift : ac.shiftReplies = none := by simp only [shiftReplies, hcue.2.2]
  unfold AsyncContext.pickCallback at hpick
  rw [hshift] at hpick
  simp only at hpick
  split at hpick
  · simp at hpick
  · split at hpick
    · obtain ⟨p, hp, hrun⟩ := Option.map_eq_some_iff.mp hpick
      obtain ⟨rfl, rfl⟩ := Picked.run.inj hrun
      rcases getSubscribeCallback_cases hp with ⟨-, hac⟩ |
        ⟨pattern, name, hlookup, hac | ⟨n, hac⟩⟩ | hs
      · rw [hac]
        exact ⟨hcue, rfl⟩
      · rw [hac]
        exact ⟨hcue, rfl⟩
      · rw [hac]
        refine ⟨?_, endings_unsubscribed hlookup hcb n⟩
        unfold unsubscribed
        split <;> split <;> exact hcue
      · unfold shiftInvalid at hs
        split at hs
        · simp at hs
        · rename_i hinvalid
          obtain ⟨hcb', hac⟩ := Prod.mk.inj (Option.some.inj hs)
          rw [← hac]
          refine ⟨hcue, ?_⟩
          unfold endings
          rw [hinvalid, nullRuns_cons _ (_ : List RedisCallback), hcb', nullRuns_null hcb]
          rfl
    · split at hpick
      · obtain ⟨-, rfl⟩ := Picked.run.inj (Option.some.inj hpick)
        exact ⟨hcue, rfl⟩
      · simp at hpick

theorem Dropped.init {replies rest : List ReplyTree} {cb : RedisCallback} {ac : AsyncContext}
    (h : Dropped (replies ++ rest) cb ac) : Dropped replies cb ac := by
  induction replies generalizing cb ac with
  | nil => trivial
  | cons reply replies ih =>
      rw [List.cons_append, Dropped] at h
      rw [Dropped]
      split at h
      · exact h
      · trivial
      · exact ⟨h.1, ih h.2⟩

/-- A record without a callback is as good as any. -/
theorem Dropped.alike {replies : List ReplyTree} {cb cb' : RedisCallback} {ac : AsyncContext}
    (hs : ac.Steady) (hcb' : cb'.fn = none) (h : Dropped replies cb ac) :
    Dropped replies cb' ac := by
  induction replies generalizing ac with
  | nil => trivial
  | cons reply replies ih =>
      rw [Dropped] at h ⊢
      have hrec : (ac.record (.reply reply)).Steady := ⟨hs.1, hs.2⟩
      by_cases hun : (ac.record (.reply reply)).Unknown reply
      · rw [pickCallback_unknown hun] at h ⊢
        exact ⟨hcb', ih hrec h.2⟩
      · rwa [pickCallback_known hun hrec.monitoring cb' cb]

section Script

variable {script : ℕ → List ApiCall}

variable (script) in
/-- Dropped replies do not change how a context at its cue ends. -/
theorem Dropped.processReplies {replies : List ReplyTree} {cb : RedisCallback}
    {ac : AsyncContext} (hcue : ac.AtCue) (h : Dropped replies cb ac) :
    ∃ ac', ac.processReplies script replies none cb = some ac' ∧
      invocations ac'.trace = invocations ac.trace ++ ac.endings := by
  induction replies generalizing cb ac with
  | nil =>
      obtain ⟨ac', hdis, -, hruns⟩ := asyncDisconnect_closing script hcue.closing hcue.2.2
      exact ⟨ac', (if_pos hcue).trans hdis, hruns⟩
  | cons reply replies ih =>
      have hrecord : invocations (ac.record (.reply reply)).trace = invocations ac.trace := by
        simp [record, invocations]
      have hcue' : (ac.record (.reply reply)).AtCue := hcue
      rw [Dropped] at h
      simp only [AsyncContext.processReplies, processReply]
      split at h
      · exact h.elim
      · rename_i ac₁ hpick
        obtain rfl := pickCallback_disconnect hpick
        have hclosing : ({ ac.record (.reply reply) with cErr := some .other } :
            AsyncContext).flags.closing = true := hcue.closing
        obtain ⟨ac', hdis, -, hruns⟩ := asyncDisconnect_closing script hclosing hcue.2.2
        refine ⟨ac', by simp only [hpick, hdis, Option.map_some, Option.bind_some], ?_⟩
        rw [hruns]
        exact congrArg₂ _ hrecord rfl
      · rename_i cb₁ ac₁ hpick
        obtain ⟨hcb, hrest⟩ := h
        obtain ⟨hcue₁, hendings⟩ := pickCallback_null hcue' hpick hcb
        obtain ⟨ac', hloop, hruns⟩ := ih hcue₁ hrest
        refine ⟨ac', ?_, ?_⟩
        · simp only [hpick, if_pos hcb, Option.bind_some]
          exact hloop
        · rw [hruns, hendings, pickCallback_run_trace hpick, hrecord]
          rfl

/-- Where the context comes to its cue, the replies that are left are dropped. -/
def LateDropped (script : ℕ → List ApiCall) (replies : List ReplyTree) (cb : RedisCallback)
    (ac : AsyncContext) : Prop :=
  ∀ before after cb' ac', replies = before ++ after →
    processLoop script before cb ac = some (.next cb' ac') → ac'.AtCue → Dropped after cb' ac'

theorem LateDropped.mono {replies replies' : List ReplyTree} {cb : RedisCallback}
    {ac : AsyncContext} (h : LateDropped script replies' cb ac) (hinit : replies <+: replies') :
    LateDropped script replies cb ac := by
  obtain ⟨rest, rfl⟩ := hinit
  intro before after cb' ac' hsplit hloop hcue
  exact (h before (after ++ rest) cb' ac' (by rw [hsplit, List.append_assoc]) hloop hcue).init

theorem LateDropped.rest {replies rest : List ReplyTree} {cb cb' : RedisCallback}
    {ac ac' : AsyncContext} (h : LateDropped script (replies ++ rest) cb ac)
    (hloop : processLoop script replies cb ac = some (.next cb' ac')) :
    LateDropped script rest cb' ac' := by
  intro before after cb'' ac'' hsplit hbefore
  refine h (replies ++ before) after cb'' ac'' (by rw [hsplit, List.append_assoc]) ?_
  rw [processLoop_append, hloop, Option.bind_some]
  exact hbefore

theorem LateDropped.null (hscript : NoMonitor script) {ac : AsyncContext} (h : ac.Steady)
    (hcue : ¬ac.AtCue) {replies : List ReplyTree} {cb : RedisCallback}
    (hstale : NeverStale script replies cb ac) (hlate : LateDropped script replies cb ac) :
    LateDropped script replies .null ac := by
  intro before after cb' ac' hsplit hloop hcue'
  cases hb : before with
  | nil =>
      subst hb
      cases hloop
      exact absurd hcue' hcue
  | cons b bs =>
      have halike := NeverStale.alike h (hb ▸ List.cons_ne_nil b bs)
        (hstale.mono ⟨after, hsplit.symm⟩)
      rw [hloop] at halike
      cases hl : processLoop script before cb ac with
      | none =>
          rw [hl] at halike
          cases halike
      | some p =>
          rw [hl] at halike
          cases halike with
          | refl => exact hlate before after cb' ac' hsplit hl hcue'
          | null ac hcb hcb' =>
              have hs : ac'.Steady := processLoop_steady hscript h hloop
              exact (hlate before after _ ac' hsplit hl hcue').alike hs hcb'

/-! ## Cuts -/

theorem processBatches_freed {batches : List (List ReplyTree)} {ac : AsyncContext}
    (h : ac.freed = true) : processBatches script batches ac = some ac := by
  cases batches with
  | nil => rfl
  | cons b bs => simp only [processBatches, h, if_true]

/-- Without stale records, and with late replies dropped, the calls run what one
call runs. -/
theorem processBatches_invocations (hscript : NoMonitor script) {batches : List (List ReplyTree)}
    (hne : batches ≠ []) {ac : AsyncContext} (h : ac.Steady)
    (hstale : NeverStale script batches.flatten .null ac)
    (hlate : LateDropped script batches.flatten .null ac) :
    (processBatches script batches ac).map (fun ac ↦ invocations ac.trace) =
      (ac.redisProcessCallbacks script batches.flatten none).map fun ac ↦ invocations ac.trace := by
  induction batches generalizing ac with
  | nil => exact (hne rfl).elim
  | cons batch batches ih =>
      have hlive : ¬(ac.freed = true) := by simp [h.live]
      rw [List.flatten_cons] at hstale hlate ⊢
      rw [processBatches, if_neg hlive, redisProcessCallbacks, redisProcessCallbacks,
        processReplies_eq, processReplies_eq, processLoop_append]
      cases hl : processLoop script batch .null ac with
      | none => rfl
      | some p =>
          have hsound := processLoop_steady hscript h hl
          cases p with
          | done ac' =>
              have hfreed : ac'.freed = true := hsound
              simp only [Option.bind_some, processBatches_freed hfreed]
          | next cb ac' =>
              have hs : ac'.Steady := hsound
              have hrest := hstale.rest hl
              simp only [Option.bind_some]
              by_cases hcue : ac'.AtCue
              · obtain ⟨ac₁, hdis, hfreed, hruns⟩ :=
                  asyncDisconnect_closing script hcue.closing hcue.2.2
                obtain ⟨ac₂, hone, hruns'⟩ := Dropped.processReplies script hcue
                  (hlate batch batches.flatten cb ac' rfl hl hcue)
                have hend : ac'.endOfReplies script none cb = some ac₁ := (if_pos hcue).trans hdis
                rw [hend, Option.bind_some, processBatches_freed hfreed, ← processReplies_eq, hone,
                  Option.map_some, Option.map_some, hruns, hruns']
              · rw [endOfReplies_uncued hs hcue, Option.bind_some, ← processReplies_eq]
                by_cases hb : batches = []
                · subst hb
                  rw [List.flatten_nil, processReplies, endOfReplies_uncued hs hcue]
                  rfl
                · rw [ih hb hs (hrest.null hs) ((hlate.rest hl).null hscript hs hcue hrest),
                    redisProcessCallbacks, hrest.processReplies_eq hscript hs]

/-- The callbacks run are the same for all ways of cutting the replies, or any
beginning of them, into calls. -/
def BatchingUnseen (script : ℕ → List ApiCall) (replies : List ReplyTree) (ac : AsyncContext) :
    Prop :=
  ∀ batches : List (List ReplyTree), batches ≠ [] → batches.flatten <+: replies →
    (processBatches script batches ac).map (fun ac ↦ invocations ac.trace) =
      (ac.redisProcessCallbacks script batches.flatten none).map fun ac ↦ invocations ac.trace

theorem runCallback_invocation {ac ac' : AsyncContext} {cb : RedisCallback} {fn : ℕ}
    (hfn : cb.fn = some fn) {reply : Option ReplyTree}
    (h : ac.runCallback script cb reply = some ac') :
    ac.trace ++ [.run fn cb.privdata reply] <+: ac'.trace := by
  unfold AsyncContext.runCallback at h
  rw [hfn] at h
  obtain ⟨ac₁, hfold, rfl⟩ := Option.map_eq_some_iff.mp h
  exact Logged.Extends.foldlM (fun call ↦ performInside_extends call) _ _ _ hfold

/-- A reply that finds a callback is given to it. -/
theorem processReplies_run {ac ac₀ ac' : AsyncContext} {reply : ReplyTree}
    {cb cb' : RedisCallback}
    (hpick : (ac.record (.reply reply)).pickCallback cb reply = some (.run cb' ac₀)) {fn : ℕ}
    (hfn : cb'.fn = some fn) (h : ac.processReplies script [reply] none cb = some ac') :
    invocations ac.trace ++ [(fn, cb'.privdata, some reply)] <+: invocations ac'.trace := by
  obtain ⟨p, hp, hend⟩ := Option.bind_eq_some_iff.mp h
  simp only [processReply, hpick, hfn, reduceCtorEq, if_false] at hp
  obtain ⟨ac₁, hrun, hnext⟩ := Option.bind_eq_some_iff.mp hp
  have hrun' := runCallback_invocation hfn hrun
  have hlater : ac₁.trace <+: ac'.trace := by
    split at hnext
    · obtain ⟨ac₂, hfree, rfl⟩ := Option.map_eq_some_iff.mp hnext
      exact Option.some.inj hend ▸ asyncFree_extends script _ _ hfree
    · cases hnext
      exact endOfReplies_extends script none cb' ac₁ ac' hend
  obtain ⟨later, hlater⟩ := hrun'.trans hlater
  refine ⟨invocations later, ?_⟩
  rw [← hlater, pickCallback_run_trace hpick]
  simp [record, invocations]

theorem redisProcessCallbacks_append {ac ac' : AsyncContext} {before replies : List ReplyTree}
    {cb : RedisCallback} (hloop : processLoop script before .null ac = some (.next cb ac'))
    (failed : Option RedisErr) :
    ac.redisProcessCallbacks script (before ++ replies) failed =
      ac'.processReplies script replies failed cb := by
  rw [redisProcessCallbacks, processReplies_eq, processLoop_append, hloop, Option.bind_some,
    ← processReplies_eq]

/-- With a cut before it, the unknown reply is dropped. -/
theorem processBatches_stale {ac ac' : AsyncContext} (h : ac.Steady) (hs : ac'.Steady)
    (hcue : ¬ac'.AtCue) {before : List ReplyTree} {cb : RedisCallback}
    (hloop : processLoop script before .null ac = some (.next cb ac')) {reply : ReplyTree}
    (hunknown : ac'.Unknown reply) :
    processBatches script [before, [reply]] ac = some (ac'.record (.reply reply)) := by
  have hlive : ∀ {ac : AsyncContext}, ac.Steady → ¬(ac.freed = true) := by
    intro ac h
    simp [h.live]
  have hfirst : ac.redisProcessCallbacks script before none = some ac' := by
    rw [← List.append_nil before, redisProcessCallbacks_append hloop]
    exact endOfReplies_uncued hs hcue cb
  have hsecond : ac'.redisProcessCallbacks script [reply] none =
      some (ac'.record (.reply reply)) := by
    rw [redisProcessCallbacks, processReplies, processReply_unknown hunknown rfl,
      Option.bind_some]
    exact endOfReplies_uncued (show (ac'.record (.reply reply)).Steady from ⟨hs.1, hs.2⟩) hcue .null
  rw [processBatches, if_neg (hlive h), hfirst, Option.bind_some, processBatches,
    if_neg (hlive hs), hsecond, Option.bind_some]
  rfl

/-- With a cut at its cue, the context ends there. -/
theorem processBatches_cue {ac ac' : AsyncContext} (h : ac.Steady) (hcue : ac'.AtCue)
    {before : List ReplyTree} {cb : RedisCallback}
    (hloop : processLoop script before .null ac = some (.next cb ac'))
    (batches : List (List ReplyTree)) :
    (processBatches script (before :: batches) ac).map (fun ac ↦ invocations ac.trace) =
      some (invocations ac'.trace ++ ac'.endings) := by
  obtain ⟨ac₁, hdis, hfreed, hruns⟩ := asyncDisconnect_closing script hcue.closing hcue.2.2
  have hfirst : ac.redisProcessCallbacks script before none = some ac₁ := by
    rw [← List.append_nil before, redisProcessCallbacks_append hloop]
    exact (if_pos hcue).trans hdis
  rw [processBatches, if_neg (by simp [h.live]), hfirst, Option.bind_some,
    processBatches_freed hfreed, Option.map_some, hruns]

variable (script) in
/-- The first reply that is not dropped makes an assertion fail, or is given to a
callback. -/
theorem exists_undropped {replies : List ReplyTree} {cb : RedisCallback} {ac : AsyncContext}
    (h : ¬Dropped replies cb ac) :
    ∃ before reply after cb' ac', replies = before ++ reply :: after ∧
      processLoop script before cb ac = some (.next cb' ac') ∧
      invocations ac'.trace = invocations ac.trace ∧
      ((ac'.record (.reply reply)).pickCallback cb' reply = none ∨
        ∃ cb'' ac'', (ac'.record (.reply reply)).pickCallback cb' reply = some (.run cb'' ac'') ∧
          cb''.fn ≠ none) := by
  induction replies generalizing cb ac with
  | nil => exact absurd trivial h
  | cons reply replies ih =>
      rw [Dropped] at h
      split at h
      · rename_i hpick
        exact ⟨[], reply, replies, cb, ac, rfl, rfl, rfl, .inl hpick⟩
      · exact absurd trivial h
      · rename_i cb₁ ac₁ hpick
        by_cases hcb : cb₁.fn = none
        · obtain ⟨before, reply', after, cb', ac', hsplit, hloop, hruns, hlast⟩ :=
            ih fun hd ↦ h ⟨hcb, hd⟩
          refine ⟨reply :: before, reply', after, cb', ac', by rw [hsplit]; rfl, ?_, ?_, hlast⟩
          · rw [processLoop]
            simp only [processReply, hpick, if_pos hcb, Option.bind_some]
            exact hloop
          · rw [hruns, pickCallback_run_trace hpick]
            simp [record, invocations]
        · exact ⟨[], reply, replies, cb, ac, rfl, rfl, rfl, .inr ⟨cb₁, ac₁, hpick, hcb⟩⟩

/-- A reply that comes after the cue and is not dropped is lost to a cut at the cue. -/
theorem BatchingUnseen.lateDropped {replies : List ReplyTree} {ac : AsyncContext}
    (hunseen : BatchingUnseen script replies ac) (h : ac.Steady) :
    LateDropped script replies .null ac := by
  intro before after cb ac' hsplit hloop hcue
  by_contra hdropped
  obtain ⟨mid, reply, rest, cb₁, ac₁, hafter, hmid, hruns, hlast⟩ :=
    exists_undropped script hdropped
  have hall : processLoop script (before ++ mid) .null ac = some (.next cb₁ ac₁) := by
    rw [processLoop_append, hloop, Option.bind_some]
    exact hmid
  have heq := hunseen [before, mid ++ [reply]] (by simp) ⟨rest, by simp [hsplit, hafter]⟩
  rw [processBatches_cue h hcue hloop, List.flatten_cons, List.flatten_singleton,
    ← List.append_assoc, redisProcessCallbacks_append hall] at heq
  obtain ⟨ac₂, hone, hsame⟩ := Option.map_eq_some_iff.mp heq.symm
  rcases hlast with hnone | ⟨cb₂, ac₃, hpick, hfn⟩
  · simp [processReplies, processReply, hnone] at hone
  · obtain ⟨fn, hfn⟩ := Option.ne_none_iff_exists'.mp hfn
    have hprefix := processReplies_run hpick hfn hone
    rw [hsame, hruns] at hprefix
    have hmem : (fn, cb₂.privdata, some reply) ∈ ac'.endings :=
      ((List.prefix_append_right_inj _).mp hprefix).subset (by simp)
    exact absurd (mem_endings hmem) (by simp)

end Script

/-- `SUBSCRIBE a`, as it is sent. -/
def subscribeA : List UInt8 := "*2\r\n$9\r\nSUBSCRIBE\r\n$1\r\na\r\n".toList.map (·.toNat.toUInt8)

/-- A message on the channel `a`, and the answer to an `UNSUBSCRIBE` of the
channel `b`, which was never subscribed. -/
def messageA : ReplyTree :=
  .array [.string ("message".toList.map (·.toNat.toUInt8)), .string [97], .string [120]]

def unsubscribeB : ReplyTree :=
  .array [.string ("unsubscribe".toList.map (·.toNat.toUInt8)), .string [98], .integer 1]

end AsyncContext

end MuxHiredis
