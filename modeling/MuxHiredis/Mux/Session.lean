import MuxHiredis.Async.Callbacks
import MuxHiredis.Async.Command
import MuxHiredis.Lib.Machine

/-!
# A multiplexed session

Callers share one connected context.  A caller puts its `cmdInfo` into the
context's `cmd_list`, `taskDeal` issues the command with `replyCallback`, and the
caller takes the reply from its `cmdInfo`.  Only the position in three queues
ties a reply to its request: `cmd_list`, the bytes under way, and the callbacks.
-/

namespace MuxHiredis

/-- `cmdInfo`.  A reply object is named by its place among the server's answers;
`posted` says whether `reply_sem` was posted, and `returned` is what the caller
returned, once it did. -/
structure CmdInfo where
  cmd : Command
  reference : ℤ
  reply : Option ℕ
  posted : Bool
  returned : Option (Option ℕ)
  deriving DecidableEq

/-- The record as `__xRedisCommand` enqueues it. -/
def CmdInfo.enqueued (c : Command) : CmdInfo := ⟨c, 2, none, false, none⟩

/-- `replyCallback`, on its record.  When the caller is gone the record is freed
and so is the reply. -/
def CmdInfo.replied (reply : Option ℕ) (ci : CmdInfo) : CmdInfo :=
  if ci.reference - 1 ≤ 0 then { ci with reference := ci.reference - 1 }
  else { ci with reference := ci.reference - 1, reply := reply, posted := true }

/-- The record is given up by the event loop without a reply. -/
def CmdInfo.released (ci : CmdInfo) : CmdInfo := { ci with reference := ci.reference - 1 }

/-- The caller takes what is there and leaves. -/
def CmdInfo.finished (ci : CmdInfo) : CmdInfo :=
  { ci with reference := ci.reference - 1, returned := some ci.reply }

/-- The reply is in the record, or was returned from it. -/
def CmdInfo.Holds (ci : CmdInfo) (k : ℕ) : Prop := ci.reply = some k ∨ ci.returned = some (some k)

/-- `replyCallback` as the function of a callback record. -/
def replyCallback : ℕ := 0

/-- One connected session.  A `cmdInfo` is named by its place in `infos`, in the
order in which they were enqueued.  `stream` is what the socket took, `received`
and `answers` are the commands that the server took from it and its replies, and
`delivered` is the number of replies that the event loop took.  `appended` lists
the records whose commands were appended to the output buffer. -/
structure XSession where
  ac : AsyncContext
  cb : RedisCallback
  connected : Bool
  cmdList : List ℕ
  infos : List CmdInfo
  stream : List UInt8
  received : List Command
  answers : List ReplyTree
  delivered : ℕ
  appended : List ℕ

namespace XSession

inductive Action where
  | enqueue (c : Command)
  | task (num : ℕ)
  | write (n : ℕ)
  | serve (c : Command) (answer : ReplyTree)
  | deliver
  | endCall
  | finish (ci : ℕ)
  | disconnect

/-- A caller adds its record under `xc->mutex`; on a lost connection it returns
without one. -/
def enqueue (s : XSession) (c : Command) : Option XSession :=
  if s.connected then
    some { s with
      cmdList := s.cmdList ++ [s.infos.length]
      infos := s.infos ++ [.enqueued c] }
  else none

/-- The loop of `taskDeal` takes at most `num` records and issues their
commands.  What `redisAsyncCommandHelper` returns is not looked at. -/
def dispatch : ℕ → XSession → Option XSession
  | 0, s => some s
  | num + 1, s =>
      match s.cmdList with
      | [] => some s
      | ci :: rest =>
          match s.infos[ci]? with
          | none => none
          | some info =>
              match s.ac.asyncCommand (some replyCallback) ci info.cmd.bytes with
              | none => none
              | some (.ok, ac) =>
                  dispatch num { s with ac := ac, cmdList := rest, appended := s.appended ++ [ci] }
              | some (.err, ac) => dispatch num { s with ac := ac, cmdList := rest }

def taskDeal (s : XSession) (num : ℕ) : Option XSession :=
  if s.connected then dispatch num s else some s

/-- The socket takes `n` bytes of the output buffer. -/
def write (s : XSession) (n : ℕ) : Option XSession :=
  if s.connected then
    some { s with
      ac := { s.ac with obuf := s.ac.obuf.drop n }
      stream := s.stream ++ s.ac.obuf.take n }
  else none

/-- The server takes the next command from the stream, once it is there, and
answers it. -/
def serve (s : XSession) (c : Command) (answer : ReplyTree) : Option XSession :=
  if s.received.flatMap Command.bytes ++ c.bytes <+: s.stream then
    some { s with received := s.received ++ [c], answers := s.answers ++ [answer] }
  else none

/-- The records whose callbacks a piece of history ran. -/
def ran (es : List Event) : List ℕ :=
  es.filterMap fun
    | .run _ privdata _ => some privdata
    | _ => none

/-- The end of the connection: the callbacks that `__redisAsyncFree` ran got a
`NULL` reply, and `disconnectedCallback` gave up what was still queued. -/
def ended (s : XSession) (ac : AsyncContext) : XSession :=
  { s with
    ac := ac
    connected := false
    cmdList := []
    infos := s.cmdList.foldl (fun infos ci ↦ infos.modify ci .released)
      ((ran (ac.trace.drop s.ac.trace.length)).foldl
        (fun infos ci ↦ infos.modify ci (.replied none)) s.infos) }

/-- The loop of `redisProcessCallbacks` takes the next reply. -/
def deliver (s : XSession) : Option XSession :=
  if s.connected then
    match s.answers[s.delivered]? with
    | none => none
    | some reply =>
        match s.ac.processReply (fun _ ↦ []) s.cb reply with
        | none => none
        | some (.next cb ac) =>
            some { s with
              ac := ac
              cb := cb
              delivered := s.delivered + 1
              infos :=
                match cb.fn with
                | none => s.infos
                | some _ => s.infos.modify cb.privdata (.replied (some s.delivered)) }
        | some (.done ac) => some (s.ended ac)
  else none

/-- The loop has no more replies; a later call starts afresh. -/
def endCall (s : XSession) : Option XSession :=
  if s.connected then
    (s.ac.endOfReplies (fun _ ↦ []) none s.cb).map fun ac ↦
      if ac.freed then s.ended ac else { s with ac := ac, cb := .null }
  else none

/-- A caller finishes, woken or timed out; its record leaves `cmd_list`, if it is
still there. -/
def finish (s : XSession) (ci : ℕ) : Option XSession :=
  match s.infos[ci]? with
  | none => none
  | some info =>
      if info.returned = none then
        some { s with cmdList := s.cmdList.erase ci, infos := s.infos.modify ci .finished }
      else none

def disconnect (s : XSession) : Option XSession :=
  if s.connected then
    ({ s.ac with cErr := some .io }.asyncDisconnect fun _ ↦ []).map s.ended
  else none

def step (s : XSession) : Action → Option XSession
  | .enqueue c => s.enqueue c
  | .task num => s.taskDeal num
  | .write n => s.write n
  | .serve c answer => s.serve c answer
  | .deliver => s.deliver
  | .endCall => s.endCall
  | .finish ci => s.finish ci
  | .disconnect => s.disconnect

/-- A session that has just been connected. -/
def fresh : XSession where
  ac := { AsyncContext.redisAsyncInitialize none true true with
    flags := ⟨true, false, false, false, false, false⟩ }
  cb := .null
  connected := true
  cmdList := []
  infos := []
  stream := []
  received := []
  answers := []
  delivered := 0
  appended := []

def machine : Machine XSession Action := ⟨(· = fresh), step⟩

/-- The command of a record. -/
def cmdOf (s : XSession) (ci : ℕ) : Command :=
  match s.infos[ci]? with
  | none => ⟨[], []⟩
  | some info => info.cmd

/-- The commands appended to the output buffer. -/
def issued (s : XSession) : List Command := s.appended.map s.cmdOf

/-- Commands are appended at most once and in the order in which they were
enqueued, and every reply that a caller returned is the server's reply to the
caller's own command; so no two callers return the same reply. -/
structure Faithful (s : XSession) : Prop where
  order : s.appended.Sublist (List.range s.infos.length)
  bytes : s.connected = true → s.stream ++ s.ac.obuf = s.issued.flatMap Command.bytes
  own : ∀ ci info k, s.infos[ci]? = some info → info.returned = some (some k) →
    s.appended[k]? = some ci ∧ s.received[k]? = some info.cmd ∧ k < s.answers.length
  once : ∀ (ci ci' : ℕ) (info info' : CmdInfo) (k : ℕ),
    s.infos[ci]? = some info → s.infos[ci']? = some info' →
    info.returned = some (some k) → info'.returned = some (some k) → ci = ci'

/-- The text of the command is taken for neither a subscription nor MONITOR. -/
def ordinary (c : Command) : Bool :=
  match commandKind c.bytes with
  | some (.subscribe _ _) | some .monitor => false
  | _ => true

/-- The condition on the commands enqueued. -/
def Plain (_ : XSession) : Action → Prop
  | .enqueue c => ordinary c = true
  | _ => True

instance (s : XSession) : DecidablePred s.Plain
  | .enqueue _ => inferInstanceAs (Decidable (_ = true))
  | .task _ | .write _ | .serve _ _ | .deliver | .endCall | .finish _ | .disconnect =>
      .isTrue trivial

/-! ## Steps of the context -/

/-- The flags of a connected context outside of callbacks. -/
def ready : Flags := ⟨true, false, false, false, false, false⟩

theorem asyncCommand_ordinary {ac : AsyncContext} (hflags : ac.flags = ready) {fn : Option ℕ}
    {privdata : ℕ} {c : Command} (hc : ordinary c = true) {p : Status × AsyncContext}
    (h : ac.asyncCommand fn privdata c.bytes = some p) :
    p = (.err, ac) ∨
      p.1 = .ok ∧ p.2.flags = ready ∧ p.2.replies = ac.replies ++ [⟨fn, privdata⟩] ∧
        p.2.obuf = ac.obuf ++ c.bytes := by
  have hopen : ac.flags.closing = false := by rw [hflags]; rfl
  have hmode : ac.flags.subscribed = false := by rw [hflags]; rfl
  unfold AsyncContext.asyncCommand at h
  simp only [hopen, Bool.false_eq_true, if_false] at h
  obtain ⟨kind, hkind, rfl⟩ := Option.map_eq_some_iff.mp h
  rw [ordinary, hkind] at hc
  cases kind with
  | subscribe pattern names => simp at hc
  | monitor => simp at hc
  | unsubscribe =>
      left
      simp [AsyncContext.registerCallback, hmode]
  | regular =>
      right
      simp only [AsyncContext.registerCallback, hmode, Bool.false_eq_true, if_false]
      exact ⟨trivial, hflags, rfl, rfl⟩

theorem runCallback_silent {ac : AsyncContext} (hflags : ac.flags = ready) (cb : RedisCallback)
    (reply : Option ReplyTree) :
    ∃ ac', ac.runCallback (fun _ ↦ []) cb reply = some ac' ∧ ac'.flags = ready ∧
      ac'.replies = ac.replies ∧ ac'.obuf = ac.obuf := by
  unfold AsyncContext.runCallback
  cases cb.fn with
  | none => exact ⟨ac, rfl, hflags, rfl, rfl⟩
  | some fn =>
      refine ⟨_, rfl, ?_, rfl, rfl⟩
      simp only [AsyncContext.record, hflags]
      rfl

/-- A pending regular callback takes the reply, and the loop goes on. -/
theorem processReply_regular {ac : AsyncContext} (hflags : ac.flags = ready) {fn ci : ℕ}
    {rest : List RedisCallback} (hreplies : ac.replies = ⟨some fn, ci⟩ :: rest)
    (cb : RedisCallback) (reply : ReplyTree) :
    ∃ ac', ac.processReply (fun _ ↦ []) cb reply = some (.next ⟨some fn, ci⟩ ac') ∧
      ac'.flags = ready ∧ ac'.replies = rest ∧ ac'.obuf = ac.obuf := by
  have hpick : (ac.record (.reply reply)).pickCallback cb reply =
      some (.run ⟨some fn, ci⟩ { ac.record (.reply reply) with replies := rest }) := by
    simp only [AsyncContext.pickCallback, AsyncContext.shiftReplies, AsyncContext.record, hreplies]
  obtain ⟨ac', hrun, hready, hrest, hobuf⟩ := runCallback_silent
    (show ({ ac.record (.reply reply) with replies := rest } : AsyncContext).flags = ready
      from hflags)
    ⟨some fn, ci⟩ (some reply)
  have hfreeing : ac'.flags.freeing = false := by rw [hready]; rfl
  refine ⟨ac', ?_, hready, hrest, hobuf⟩
  unfold AsyncContext.processReply
  rw [hpick]
  simp only [reduceCtorEq, if_false, hrun, Option.bind_some, hfreeing, Bool.false_eq_true]

/-! ## Records -/

theorem getElem?_modify_cases {infos : List CmdInfo} {f : CmdInfo → CmdInfo} {ci cj : ℕ}
    {info' : CmdInfo} (h : (infos.modify ci f)[cj]? = some info') :
    ∃ info, infos[cj]? = some info ∧ (cj = ci ∧ info' = f info ∨ info' = info) := by
  rw [List.getElem?_modify] at h
  obtain ⟨info, hinfo, rfl⟩ := Option.map_eq_some_iff.mp h
  refine ⟨info, hinfo, ?_⟩
  split
  · rename_i heq
    exact Or.inl ⟨heq.symm, rfl⟩
  · exact Or.inr rfl

theorem map_cmd_modify {f : CmdInfo → CmdInfo} (hcmd : ∀ info, (f info).cmd = info.cmd)
    (infos : List CmdInfo) (ci : ℕ) :
    (infos.modify ci f).map CmdInfo.cmd = infos.map CmdInfo.cmd := by
  refine List.ext_getElem? fun cj ↦ ?_
  rw [List.getElem?_map, List.getElem?_map, List.getElem?_modify]
  cases infos[cj]? with
  | none => rfl
  | some info =>
      simp only [Option.map_some]
      split <;> simp [hcmd]

/-- The records are those there were, and hold no more replies. -/
structure Keeps (infos infos' : List CmdInfo) : Prop where
  cmds : infos'.map CmdInfo.cmd = infos.map CmdInfo.cmd
  holds : ∀ (ci : ℕ) info' k, infos'[ci]? = some info' → info'.Holds k →
    ∃ info, infos[ci]? = some info ∧ info.Holds k

theorem Keeps.refl (infos : List CmdInfo) : Keeps infos infos :=
  ⟨rfl, fun _ info _ h hk ↦ ⟨info, h, hk⟩⟩

theorem Keeps.trans {infos infos' infos'' : List CmdInfo} (h : Keeps infos infos')
    (h' : Keeps infos' infos'') : Keeps infos infos'' := by
  refine ⟨h'.cmds.trans h.cmds, ?_⟩
  intro ci info'' k hci hk
  obtain ⟨info', hci', hk'⟩ := h'.holds ci info'' k hci hk
  exact h.holds ci info' k hci' hk'

theorem Keeps.modify {f : CmdInfo → CmdInfo} (hcmd : ∀ info, (f info).cmd = info.cmd)
    (hholds : ∀ info k, (f info).Holds k → info.Holds k) (infos : List CmdInfo) (ci : ℕ) :
    Keeps infos (infos.modify ci f) := by
  refine ⟨map_cmd_modify hcmd infos ci, ?_⟩
  intro cj info' k hcj hk
  obtain ⟨info, hinfo, ⟨-, rfl⟩ | rfl⟩ := getElem?_modify_cases hcj
  · exact ⟨info, hinfo, hholds info k hk⟩
  · exact ⟨info', hinfo, hk⟩

theorem Keeps.modifyAll {f : CmdInfo → CmdInfo} (hcmd : ∀ info, (f info).cmd = info.cmd)
    (hholds : ∀ info k, (f info).Holds k → info.Holds k) (infos : List CmdInfo) (cis : List ℕ) :
    Keeps infos (cis.foldl (fun infos ci ↦ infos.modify ci f) infos) := by
  induction cis generalizing infos with
  | nil => exact .refl infos
  | cons ci cis ih => exact (Keeps.modify hcmd hholds infos ci).trans (ih _)

theorem cmd_replied (reply : Option ℕ) (info : CmdInfo) : (info.replied reply).cmd = info.cmd := by
  unfold CmdInfo.replied
  split <;> rfl

theorem holds_replied {reply : Option ℕ} {info : CmdInfo} {k : ℕ}
    (h : (info.replied reply).Holds k) : reply = some k ∨ info.Holds k := by
  unfold CmdInfo.replied at h
  split at h
  · exact Or.inr h
  · exact h.elim Or.inl fun hret ↦ Or.inr (Or.inr hret)

theorem holds_finished {info : CmdInfo} {k : ℕ} (h : info.finished.Holds k) : info.Holds k :=
  h.elim Or.inl fun hret ↦ Or.inl (Option.some.inj hret)

/-! ## The invariant -/

/-- The queues are aligned.  The callbacks pending are those of the appended
commands whose replies were not taken, in this order, and the bytes that the
server has not taken are those of the commands it has not answered. -/
structure Aligned (s : XSession) : Prop where
  order : (s.appended ++ s.cmdList).Sublist (List.range s.infos.length)
  allOrdinary : ∀ info ∈ s.infos, ordinary info.cmd = true
  flags : s.connected = true → s.ac.flags = ready
  pending : s.connected = true →
    s.ac.replies = (s.appended.drop s.delivered).map fun ci ↦ ⟨some replyCallback, ci⟩
  bytes : s.connected = true → s.stream ++ s.ac.obuf = s.issued.flatMap Command.bytes
  sent : s.stream <+: s.issued.flatMap Command.bytes
  received : s.received <+: s.issued
  answered : s.answers.length = s.received.length
  delivered : s.delivered ≤ s.answers.length
  own : ∀ ci info k, s.infos[ci]? = some info → info.Holds k →
    k < s.delivered ∧ s.appended[k]? = some ci

theorem fresh_aligned : fresh.Aligned :=
  ⟨.refl _, by simp [fresh], fun _ ↦ rfl, fun _ ↦ rfl, fun _ ↦ rfl, ⟨[], rfl⟩, ⟨[], rfl⟩, rfl,
    le_rfl, by simp [fresh]⟩

theorem cmdOf_eq (s : XSession) (ci : ℕ) :
    s.cmdOf ci = (s.infos[ci]?.map CmdInfo.cmd).getD ⟨[], []⟩ := by
  unfold cmdOf
  cases s.infos[ci]? <;> rfl

theorem issued_eq {s t : XSession} (happended : t.appended = s.appended)
    (hcmd : ∀ ci ∈ s.appended, t.infos[ci]?.map CmdInfo.cmd = s.infos[ci]?.map CmdInfo.cmd) :
    t.issued = s.issued := by
  unfold issued
  rw [happended]
  refine List.map_congr_left fun ci hci ↦ ?_
  rw [cmdOf_eq, cmdOf_eq, hcmd ci hci]

theorem getElem?_issued {s : XSession} {k ci : ℕ} {info : CmdInfo}
    (hk : s.appended[k]? = some ci) (hci : s.infos[ci]? = some info) :
    s.issued[k]? = some info.cmd := by
  rw [issued, List.getElem?_map, hk, Option.map_some, cmdOf_eq, hci]
  rfl

theorem Aligned.faithful {s : XSession} (h : s.Aligned) : s.Faithful := by
  have hown : ∀ (ci : ℕ) (info : CmdInfo) (k : ℕ), s.infos[ci]? = some info →
      info.returned = some (some k) → k < s.delivered ∧ s.appended[k]? = some ci :=
    fun ci info k hci hret ↦ h.own ci info k hci (Or.inr hret)
  refine ⟨(List.sublist_append_left _ _).trans h.order, h.bytes, ?_, ?_⟩
  · intro ci info k hci hret
    obtain ⟨hlt, happ⟩ := hown ci info k hci hret
    have hanswers : k < s.answers.length := hlt.trans_le h.delivered
    have hreceived : k < s.received.length := h.answered ▸ hanswers
    refine ⟨happ, ?_, hanswers⟩
    obtain ⟨tail, htail⟩ := h.received
    rw [← List.getElem?_append_left hreceived, htail]
    exact getElem?_issued happ hci
  · intro ci ci' info info' k hci hci' hret hret'
    have happ := (hown ci info k hci hret).2
    have happ' := (hown ci' info' k hci' hret').2
    exact Option.some.inj (happ.symm.trans happ')

/-- A step that appends no command and takes nothing from the stream. -/
theorem Aligned.update {s s' : XSession} (h : s.Aligned)
    (hcmds : s'.infos.map CmdInfo.cmd = s.infos.map CmdInfo.cmd)
    (hlist : s'.cmdList.Sublist s.cmdList) (happended : s'.appended = s.appended)
    (hstream : s'.stream = s.stream) (hreceived : s'.received = s.received)
    (hanswers : s'.answers = s.answers) (hdelivered : s'.delivered ≤ s.answers.length)
    (hown : ∀ (ci : ℕ) info k, s'.infos[ci]? = some info → info.Holds k →
      k < s'.delivered ∧ s.appended[k]? = some ci)
    (hac : s'.connected = true → s.connected = true ∧ s'.ac.flags = ready ∧
      s'.ac.replies = ((s.appended.drop s'.delivered).map fun ci ↦ ⟨some replyCallback, ci⟩) ∧
      s'.ac.obuf = s.ac.obuf) : s'.Aligned := by
  have hissued : s'.issued = s.issued := by
    refine issued_eq happended fun ci _ ↦ ?_
    rw [← List.getElem?_map, ← List.getElem?_map, hcmds]
  have hlength : s'.infos.length = s.infos.length := by
    simpa using congrArg List.length hcmds
  refine ⟨?_, ?_, fun hc ↦ (hac hc).2.1, ?_, ?_, ?_, ?_, ?_, hanswers ▸ hdelivered, ?_⟩
  · rw [happended, hlength]
    exact (hlist.append_left s.appended).trans h.order
  · intro info' hmem
    have hcmd := List.mem_map_of_mem (f := CmdInfo.cmd) hmem
    rw [hcmds] at hcmd
    obtain ⟨info, hinfo, heq⟩ := List.mem_map.mp hcmd
    exact heq ▸ h.allOrdinary info hinfo
  · intro hc
    rw [happended]
    exact (hac hc).2.2.1
  · intro hc
    obtain ⟨hconn, -, -, hobuf⟩ := hac hc
    rw [hstream, hobuf, hissued]
    exact h.bytes hconn
  · rw [hstream, hissued]
    exact h.sent
  · rw [hreceived, hissued]
    exact h.received
  · rw [hanswers, hreceived]
    exact h.answered
  · rw [happended]
    exact hown

/-- A step that only gives up queued records and replies. -/
theorem Aligned.keep {s s' : XSession} (h : s.Aligned) (hkeeps : Keeps s.infos s'.infos)
    (hlist : s'.cmdList.Sublist s.cmdList) (happended : s'.appended = s.appended)
    (hstream : s'.stream = s.stream) (hreceived : s'.received = s.received)
    (hanswers : s'.answers = s.answers) (hdelivered : s'.delivered = s.delivered)
    (hac : s'.connected = true → s.connected = true ∧ s'.ac = s.ac) : s'.Aligned := by
  refine h.update hkeeps.cmds hlist happended hstream hreceived hanswers
    (hdelivered ▸ h.delivered) ?_ ?_
  · intro ci info' k hci hk
    obtain ⟨info, hinfo, hk'⟩ := hkeeps.holds ci info' k hci hk
    exact hdelivered ▸ h.own ci info k hinfo hk'
  · intro hc
    obtain ⟨hconn, hac⟩ := hac hc
    exact ⟨hconn, hac ▸ h.flags hconn, by rw [hac, hdelivered]; exact h.pending hconn, by rw [hac]⟩

/-! ## Steps -/

theorem Aligned.enqueue {s s' : XSession} (h : s.Aligned) {c : Command} (hc : ordinary c = true)
    (hstep : s.enqueue c = some s') : s'.Aligned := by
  unfold XSession.enqueue at hstep
  split at hstep
  · obtain rfl := Option.some.inj hstep
    have hbound : ∀ ci ∈ s.appended, ci < s.infos.length := by
      intro ci hci
      exact List.mem_range.mp (h.order.subset (List.mem_append_left _ hci))
    have hissued : XSession.issued _ = s.issued := issued_eq
      (t := { s with
        cmdList := s.cmdList ++ [s.infos.length], infos := s.infos ++ [.enqueued c] }) rfl
      fun ci hci ↦ congrArg _ (List.getElem?_append_left (hbound ci hci))
    refine ⟨?_, ?_, h.flags, h.pending, ?_, ?_, ?_, h.answered, h.delivered, ?_⟩
    · simp only [List.length_append, List.length_singleton, List.range_succ, ← List.append_assoc]
      exact h.order.append (.refl _)
    · intro info hmem
      rcases List.mem_append.mp hmem with hmem | hmem
      · exact h.allOrdinary info hmem
      · exact List.mem_singleton.mp hmem ▸ hc
    · rw [hissued]
      exact h.bytes
    · rw [hissued]
      exact h.sent
    · rw [hissued]
      exact h.received
    · intro ci info k hci hk
      by_cases hlt : ci < s.infos.length
      · rw [List.getElem?_append_left hlt] at hci
        exact h.own ci info k hci hk
      · rw [List.getElem?_append_right (by omega)] at hci
        obtain rfl := List.mem_singleton.mp (List.mem_of_getElem? hci)
        rcases hk with hk | hk <;> simp [CmdInfo.enqueued] at hk
  · simp at hstep

/-- `taskDeal` gives up the record that it took. -/
theorem Aligned.drop {s : XSession} (h : s.Aligned) {ci : ℕ} {rest : List ℕ}
    (hlist : s.cmdList = ci :: rest) : { s with cmdList := rest }.Aligned :=
  h.keep (.refl _) (hlist ▸ List.sublist_cons_self ci rest) rfl rfl rfl rfl rfl
    fun hc ↦ ⟨hc, rfl⟩

/-- `taskDeal` issues the command of the record that it took. -/
theorem Aligned.append {s : XSession} (h : s.Aligned) (hconn : s.connected = true) {ci : ℕ}
    {rest : List ℕ} (hlist : s.cmdList = ci :: rest) {info : CmdInfo}
    (hci : s.infos[ci]? = some info) {ac : AsyncContext} (hflags : ac.flags = ready)
    (hreplies : ac.replies = s.ac.replies ++ [⟨some replyCallback, ci⟩])
    (hobuf : ac.obuf = s.ac.obuf ++ info.cmd.bytes) :
    { s with ac := ac, cmdList := rest, appended := s.appended ++ [ci] }.Aligned := by
  have hissued : XSession.issued
      { s with ac := ac, cmdList := rest, appended := s.appended ++ [ci] } =
      s.issued ++ [info.cmd] := by
    have hcmd : s.cmdOf ci = info.cmd := by
      rw [cmdOf_eq, hci]
      rfl
    rw [XSession.issued, List.map_append, List.map_singleton]
    exact congrArg _ (congrArg (fun c ↦ [c]) hcmd)
  have hlength : s.issued.length = s.appended.length := List.length_map _
  have hdelivered : s.delivered ≤ s.appended.length := by
    have hle := h.received.length_le
    have := h.delivered
    rw [h.answered] at this
    omega
  refine ⟨?_, h.allOrdinary, fun _ ↦ hflags, fun _ ↦ ?_, fun _ ↦ ?_, ?_, ?_, h.answered,
    h.delivered,
    ?_⟩
  · have horder := h.order
    rw [hlist] at horder
    simpa using horder
  · rw [hreplies, h.pending hconn, List.drop_append_of_le_length hdelivered, List.map_append]
    rfl
  · rw [hissued, hobuf, ← List.append_assoc, h.bytes hconn, List.flatMap_append]
    simp
  · rw [hissued, List.flatMap_append]
    exact h.sent.trans (List.prefix_append _ _)
  · rw [hissued]
    exact h.received.trans (List.prefix_append _ _)
  · intro cj info' k hcj hk
    obtain ⟨hlt, happ⟩ := h.own cj info' k hcj hk
    exact ⟨hlt, by rw [List.getElem?_append_left (by omega), happ]⟩

theorem Aligned.dispatch {s s' : XSession} (h : s.Aligned) (hconn : s.connected = true) {num : ℕ}
    (hstep : dispatch num s = some s') : s'.Aligned := by
  induction num generalizing s with
  | zero => exact Option.some.inj hstep ▸ h
  | succ num ih =>
      unfold XSession.dispatch at hstep
      split at hstep
      · exact Option.some.inj hstep ▸ h
      · rename_i ci rest hlist
        split at hstep
        · simp at hstep
        · rename_i info hci
          have hord := h.allOrdinary info (List.mem_of_getElem? hci)
          split at hstep
          · simp at hstep
          · rename_i ac hcmd
            rcases asyncCommand_ordinary (h.flags hconn) hord hcmd with
              hp | ⟨-, hflags, hreplies, hobuf⟩
            · simp at hp
            · exact ih (h.append hconn hlist hci hflags hreplies hobuf) hconn hstep
          · rename_i ac hcmd
            rcases asyncCommand_ordinary (h.flags hconn) hord hcmd with hp | ⟨hp, -⟩
            · obtain ⟨-, rfl⟩ := Prod.mk.inj hp
              exact ih (h.drop hlist) hconn hstep
            · simp at hp

theorem Aligned.write {s s' : XSession} (h : s.Aligned) {n : ℕ} (hstep : s.write n = some s') :
    s'.Aligned := by
  unfold XSession.write at hstep
  split at hstep
  · rename_i hconn
    obtain rfl := Option.some.inj hstep
    have hbytes : (s.stream ++ s.ac.obuf.take n) ++ s.ac.obuf.drop n =
        s.issued.flatMap Command.bytes := by
      rw [List.append_assoc, List.take_append_drop, h.bytes hconn]
    exact ⟨h.order, h.allOrdinary, h.flags, h.pending, fun _ ↦ hbytes, ⟨s.ac.obuf.drop n, hbytes⟩,
      h.received, h.answered, h.delivered, h.own⟩
  · simp at hstep

theorem Aligned.serve {s s' : XSession} (h : s.Aligned) {c : Command} {answer : ReplyTree}
    (hstep : s.serve c answer = some s') : s'.Aligned := by
  unfold XSession.serve at hstep
  split at hstep
  · rename_i hstart
    obtain rfl := Option.some.inj hstep
    refine ⟨h.order, h.allOrdinary, h.flags, h.pending, h.bytes, h.sent, ?_, ?_, ?_, h.own⟩
    · -- What comes after the commands received is the next command appended.
      obtain ⟨tail, htail⟩ := h.received
      have hall := hstart.trans h.sent
      rw [← htail, List.flatMap_append] at hall
      have hnext : c.bytes <+: tail.flatMap Command.bytes :=
        (List.prefix_append_right_inj _).mp hall
      cases tail with
      | nil =>
          have hnil := List.prefix_nil.mp hnext
          simp [Command.bytes, redisFormatCommandArgv] at hnil
      | cons d tail =>
          obtain ⟨more, hmore⟩ := hnext
          rw [List.flatMap_cons] at hmore
          obtain ⟨rfl, -⟩ := bytes_append_inj hmore
          exact ⟨tail, by rw [List.append_assoc]; exact htail⟩
    · simp only [List.length_append, List.length_singleton, h.answered]
    · simp only [List.length_append]
      exact h.delivered.trans (Nat.le_add_right _ _)
  · simp at hstep

theorem Aligned.ended {s : XSession} (h : s.Aligned) (ac : AsyncContext) :
    (s.ended ac).Aligned := by
  have hreplied := Keeps.modifyAll (cmd_replied none)
    (fun _ _ hk ↦ (holds_replied hk).resolve_left (by simp)) s.infos
    (ran (ac.trace.drop s.ac.trace.length))
  have hreleased := fun infos ↦ Keeps.modifyAll (f := CmdInfo.released) (fun _ ↦ rfl)
    (fun _ _ hk ↦ hk) infos s.cmdList
  exact h.keep (hreplied.trans (hreleased _)) (List.nil_sublist _) rfl rfl rfl rfl rfl
    fun hc ↦ absurd hc (by simp [XSession.ended])

theorem Aligned.finish {s s' : XSession} (h : s.Aligned) {ci : ℕ} (hstep : s.finish ci = some s') :
    s'.Aligned := by
  unfold XSession.finish at hstep
  split at hstep
  · simp at hstep
  · split at hstep
    · obtain rfl := Option.some.inj hstep
      have hkeeps := Keeps.modify (f := CmdInfo.finished) (fun _ ↦ rfl)
        (fun _ _ hk ↦ holds_finished hk) s.infos ci
      exact h.keep hkeeps List.erase_sublist rfl rfl rfl rfl rfl fun hc ↦ ⟨hc, rfl⟩
    · simp at hstep

theorem Aligned.endCall {s s' : XSession} (h : s.Aligned) (hstep : s.endCall = some s') :
    s'.Aligned := by
  unfold XSession.endCall at hstep
  split at hstep
  · rename_i hconn
    have hmode : s.ac.flags.disconnecting = false ∧ s.ac.flags.monitoring = false := by
      rw [h.flags hconn]
      exact ⟨rfl, rfl⟩
    simp only [AsyncContext.endOfReplies, hmode.1, hmode.2, Bool.false_eq_true, false_and, if_false,
      Option.map_some, Option.some.injEq] at hstep
    split at hstep
    · exact hstep ▸ h.ended s.ac
    · exact hstep ▸ h.keep (.refl _) (.refl _) rfl rfl rfl rfl rfl fun hc ↦ ⟨hc, rfl⟩
  · simp at hstep

theorem Aligned.deliver {s s' : XSession} (h : s.Aligned) (hstep : s.deliver = some s') :
    s'.Aligned := by
  unfold XSession.deliver at hstep
  split at hstep
  · rename_i hconn
    cases hreply : s.answers[s.delivered]? with
    | none => simp [hreply] at hstep
    | some reply =>
        have hlt : s.delivered < s.answers.length := (List.getElem?_eq_some_iff.mp hreply).1
        have hlength : s.issued.length = s.appended.length := List.length_map _
        have happended : s.delivered < s.appended.length := by
          have hle := h.received.length_le
          have hanswered := h.answered
          omega
        have hpending := h.pending hconn
        rw [List.drop_eq_getElem_cons happended, List.map_cons] at hpending
        obtain ⟨ac, hprocess, hflags, hreplies, hobuf⟩ :=
          processReply_regular (h.flags hconn) hpending s.cb reply
        simp only [hreply, hprocess, Option.some.injEq] at hstep
        subst hstep
        refine h.update (map_cmd_modify (cmd_replied _) _ _) (.refl _) rfl rfl rfl rfl hlt ?_
          fun hc ↦ ⟨hc, hflags, hreplies, hobuf⟩
        intro cj info' k hcj hk
        obtain ⟨info, hinfo, ⟨rfl, rfl⟩ | rfl⟩ := getElem?_modify_cases hcj
        · rcases holds_replied hk with hk | hk
          · obtain rfl := Option.some.inj hk
            exact ⟨Nat.lt_succ_self _, List.getElem?_eq_getElem happended⟩
          · obtain ⟨hk', happ⟩ := h.own _ info k hinfo hk
            exact ⟨hk'.trans (Nat.lt_succ_self _), happ⟩
        · obtain ⟨hk', happ⟩ := h.own cj _ k hinfo hk
          exact ⟨hk'.trans (Nat.lt_succ_self _), happ⟩
  · simp at hstep

theorem Aligned.disconnect {s s' : XSession} (h : s.Aligned) (hstep : s.disconnect = some s') :
    s'.Aligned := by
  unfold XSession.disconnect at hstep
  split at hstep
  · obtain ⟨ac, -, rfl⟩ := Option.map_eq_some_iff.mp hstep
    exact h.ended ac
  · simp at hstep

theorem Aligned.step {s s' : XSession} (h : s.Aligned) {a : Action} (hplain : s.Plain a)
    (hstep : s.step a = some s') : s'.Aligned := by
  cases a with
  | enqueue c => exact h.enqueue hplain hstep
  | task num =>
      have htask : s.taskDeal num = some s' := hstep
      unfold taskDeal at htask
      split at htask
      · rename_i hconn
        exact h.dispatch hconn htask
      · exact Option.some.inj htask ▸ h
  | write n => exact h.write hstep
  | serve c answer => exact h.serve hstep
  | deliver => exact h.deliver hstep
  | endCall => exact h.endCall hstep
  | finish ci => exact h.finish hstep
  | disconnect => exact h.disconnect hstep

/-- Every caller gets the reply to its own command in a session whose commands
all meet the condition. -/
theorem plain_faithful {s : XSession} (h : machine.Reach Plain s) : s.Faithful := by
  have haligned : s.Aligned := by
    refine h.invariant ?_ ?_
    · rintro s rfl
      exact fresh_aligned
    · intro s a s' hs hplain hstep
      exact hs.step hplain hstep
  exact haligned.faithful

/-- A caller times out after its command was sent; the next caller still gets its
own reply. -/
theorem plain_faithful_timeout :
    ∃ s, machine.run fresh
      [.enqueue (.ofWords "GET" ["x"]), .enqueue (.ofWords "GET" ["y"]), .task 2, .finish 0,
        .write 100, .serve (.ofWords "GET" ["x"]) .nil, .serve (.ofWords "GET" ["y"]) .nil,
        .deliver, .deliver, .endCall, .finish 1] = some s ∧
      s.infos.map CmdInfo.returned = [some none, some (some 1)] ∧ s.Faithful := by
  obtain ⟨s, hrun, hret⟩ := machine.run_spec fresh
    [.enqueue (.ofWords "GET" ["x"]), .enqueue (.ofWords "GET" ["y"]), .task 2,
        .finish 0, .write 100, .serve (.ofWords "GET" ["x"]) .nil,
        .serve (.ofWords "GET" ["y"]) .nil, .deliver, .deliver, .endCall, .finish 1]
    (fun s ↦ decide (s.infos.map CmdInfo.returned = [some none, some (some 1)])) (by decide)
  exact ⟨s, hrun, of_decide_eq_true hret, plain_faithful (.run (.start rfl) (by decide) hrun)⟩

/-- PMONITOR is an unknown command for the server, but the client takes it for
MONITOR and pushes its callback again.  The second caller then returns the reply
to the third caller's command. -/
theorem pmonitor_misdelivers :
    ∃ s, machine.run fresh
      [.enqueue (.ofWords "PMONITOR" []), .task 1, .write 100,
        .serve (.ofWords "PMONITOR" []) (.error (ascii "ERR unknown command")), .deliver, .endCall,
        .enqueue (.ofWords "GET" ["x"]), .enqueue (.ofWords "GET" ["y"]), .task 2, .write 100,
        .serve (.ofWords "GET" ["x"]) .nil, .serve (.ofWords "GET" ["y"]) .nil,
        .deliver, .deliver, .finish 1] = some s ∧
      machine.Reachable s ∧ ¬s.Faithful := by
  obtain ⟨s, hrun, hwrong⟩ := machine.run_spec fresh
    [.enqueue (.ofWords "PMONITOR" []), .task 1, .write 100,
        .serve (.ofWords "PMONITOR" []) (.error (ascii "ERR unknown command")), .deliver, .endCall,
        .enqueue (.ofWords "GET" ["x"]), .enqueue (.ofWords "GET" ["y"]), .task 2, .write 100,
        .serve (.ofWords "GET" ["x"]) .nil, .serve (.ofWords "GET" ["y"]) .nil,
        .deliver, .deliver, .finish 1]
    (fun s ↦ decide (s.appended[2]? = some 2) &&
      s.infos[1]?.any fun info ↦ info.returned = some (some 2)) (by decide)
  refine ⟨s, hrun, .run (.start rfl) hrun, ?_⟩
  intro hfaithful
  obtain ⟨happ, hret⟩ := (Bool.and_eq_true _ _).mp hwrong
  obtain ⟨info, hinfo, hret⟩ := (Option.any_eq_true _ _).mp hret
  have hown := (hfaithful.own 1 info 2 hinfo (of_decide_eq_true hret)).1
  have hother := hown.symm.trans (of_decide_eq_true happ)
  exact absurd hother (by decide)

end XSession

end MuxHiredis
