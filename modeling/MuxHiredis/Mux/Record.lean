import MuxHiredis.Async.Command
import MuxHiredis.Async.Registered
import MuxHiredis.Lib.Machine

/-!
# The life of a command record

A `cmdInfo` is shared by its caller in `__xRedisCommand` and the event loop, and
a counter decides who frees it.  Each access to a field, each operation on the
counter or the status and each `free` is a step of its own.
-/

namespace MuxHiredis

/-- Where a caller stands in `__xRedisCommand`, once it has its record.  It holds
`xc->mutex` from `locked` to `added` and in the states `refused*`. -/
inductive CallerAt where
  | absent
  | created
  | locked
  | noContext
  | counted
  | refused
  | refusedFreeing
  | refusedFreed
  | adding
  | added
  | looking
  | waiting
  | reading
  | dropping
  | destroying
  | freeing
  | searching
  | withdrawing
  | checking
  | done
  deriving DecidableEq, Repr

/-- Where the event loop has a record, as far as it came: in `cmd_list`, taken
from it by `disconnectedCallback` or by `taskDeal`, registered with the context
or refused by it, handed to `replyCallback`, given up by `disconnectedCallback`,
freed by `__redisAsyncFree`; or withdrawn from `cmd_list` by its caller. -/
inductive Place where
  | unseen
  | queued
  | taken
  | issuing
  | held
  | refused
  | called
  | dropped
  | scrapped
  | withdrawn
  deriving DecidableEq, Repr

/-- A `cmdInfo` with what was done to it: how often it was freed, and whether it
was used after that.  `reply` says whether the reply is not `NULL`. -/
structure CmdRecord where
  cmd : List UInt8
  reference : ℤ
  reply : Bool
  posts : ℕ
  freed : ℕ
  stale : Bool
  pc : CallerAt
  place : Place

namespace CmdRecord

/-- No record yet. -/
def absent : CmdRecord := ⟨[], 0, false, 0, 0, false, .absent, .unseen⟩

/-- `malloc` and the first values. -/
def create (cmd : List UInt8) : CmdRecord := ⟨cmd, 1, false, 0, 0, false, .created, .unseen⟩

/-- A field is read or written. -/
def touch (r : CmdRecord) : CmdRecord := { r with stale := r.stale || decide (0 < r.freed) }

def free (r : CmdRecord) : CmdRecord := { r with freed := r.freed + 1 }

def count (r : CmdRecord) (n : ℤ) : CmdRecord := { r.touch with reference := r.reference + n }

def goto (r : CmdRecord) (pc : CallerAt) : CmdRecord := { r with pc := pc }

def put (r : CmdRecord) (place : Place) : CmdRecord := { r with place := place }

end CmdRecord

/-- Where a callback or a `free` returns to in the event loop. -/
inductive Resume where
  | replies
  | ending
  | clearing
  deriving DecidableEq, Repr

/-- Where the event loop stands: in `taskDeal`, in `replyCallback`, in
`__redisAsyncFree` or in `disconnectedCallback`. -/
inductive LoopAt where
  | idle
  | tasking (num : ℕ)
  | issuing (ci num : ℕ)
  | replying (ci : ℕ) (reply : Bool) (next : Resume)
  | writing (ci : ℕ) (reply : Bool) (next : Resume)
  | posting (ci : ℕ) (next : Resume)
  | destroying (ci : ℕ) (next : Resume)
  | freeing (ci : ℕ) (next : Resume)
  | ending
  | clearing
  | dropping (ci : ℕ)
  | unlocking
  | scrapping
  | finished
  deriving DecidableEq, Repr

def Resume.at : Resume → LoopAt
  | .replies => .idle
  | .ending => .ending
  | .clearing => .clearing

/-- The thread that holds `xc->mutex`. -/
inductive Holder where
  | caller (ci : ℕ)
  | loop
  deriving DecidableEq, Repr

/-- The callers and the event loop of one connection.  `connected` says whether
`xc->status` is `REDIS_CONNECTED`, `hasCtx` whether `xc->ctx` is there. -/
structure Sharing where
  ac : AsyncContext
  cb : RedisCallback
  connected : Bool
  hasCtx : Bool
  mutex : Option Holder
  cmdList : List ℕ
  records : ℕ → CmdRecord
  loop : LoopAt

namespace Sharing

inductive Action where
  | call (ci : ℕ) (cmd : List UInt8)
  | caller (ci : ℕ)
  | context (hasCtx : Bool)
  | task (num : ℕ)
  | read (reply : ReplyTree)
  | endCall
  | close (err : Option RedisErr)
  | free
  | loop

def update (s : Sharing) (ci : ℕ) (r : CmdRecord) : Sharing :=
  { s with records := Function.update s.records ci r }

/-- The next step of a caller. -/
def stepCaller (s : Sharing) (ci : ℕ) : Option Sharing :=
  let r := s.records ci
  match r.pc with
  | .absent | .done => none
  | .created =>
      if s.mutex = none then some { s.update ci (r.goto .locked) with mutex := some (.caller ci) }
      else none
  | .locked =>
      if s.hasCtx then some (s.update ci ((r.count 1).goto .counted))
      else some { s.update ci (r.goto .noContext) with mutex := none }
  | .noContext => some (s.update ci (r.free.goto .done))
  | .counted => some (s.update ci (r.goto (if s.connected then .adding else .refused)))
  | .refused => some (s.update ci (r.touch.goto .refusedFreeing))
  | .refusedFreeing => some (s.update ci (r.free.goto .refusedFreed))
  | .refusedFreed => some { s.update ci (r.goto .done) with mutex := none }
  | .adding =>
      some { s.update ci ((r.put .queued).goto .added) with cmdList := s.cmdList ++ [ci] }
  | .added => some { s.update ci (r.goto .looking) with mutex := none }
  | .looking => some (s.update ci (r.touch.goto (if r.reply then .reading else .waiting)))
  -- Woken or timed out.
  | .waiting => some (s.update ci (r.touch.goto .reading))
  | .reading => some (s.update ci (r.touch.goto .dropping))
  | .dropping =>
      some (s.update ci ((r.count (-1)).goto
        (if r.reference - 1 ≤ 0 then .destroying else .searching)))
  | .destroying => some (s.update ci (r.touch.goto .freeing))
  | .freeing => some (s.update ci (r.free.goto .done))
  | .searching =>
      some (s.update ci (r.goto (if ci ∈ s.cmdList then .withdrawing else .checking)))
  -- The event loop may have taken the node since.
  | .withdrawing =>
      if ci ∈ s.cmdList then
        some { s.update ci ((r.put .withdrawn).goto .checking) with
          cmdList := s.cmdList.erase ci }
      else some (s.update ci (r.goto .checking))
  | .checking => some (s.update ci (r.goto (if s.connected then .done else .destroying)))

/-- The event loop runs a callback; `replyCallback` is the only function there
is. -/
def runCallback (s : Sharing) (cb : RedisCallback) (reply : Bool) (next : Resume) : Sharing :=
  match cb.fn with
  | none => { s with loop := next.at }
  | some _ => { s with loop := .replying cb.privdata reply next }

/-- The first callback that `__redisAsyncFree` has still to run. -/
def nextPending (ac : AsyncContext) : Option (RedisCallback × AsyncContext) :=
  match ac.shiftReplies with
  | some p => some p
  | none =>
      match ac.shiftInvalid with
      | some p => some p
      | none =>
          match ac.channels.entries with
          | e :: _ => some (e.2, { ac with channels := ac.channels.erase e.1 })
          | [] =>
              match ac.patterns.entries with
              | e :: _ => some (e.2, { ac with patterns := ac.patterns.erase e.1 })
              | [] => none

/-- The disconnect callback is called with an error. -/
def Lost (ac : AsyncContext) : Prop :=
  ac.onDisconnect = true ∧ ac.flags.connected = true ∧ ac.flags.freeing = false ∧ ac.err ≠ none

instance : DecidablePred Lost := fun _ ↦ inferInstanceAs (Decidable (_ ∧ _ ∧ _ ∧ _))

/-- The next step of the event loop inside of one of its functions. -/
def stepLoop (s : Sharing) : Option Sharing :=
  match s.loop with
  | .idle | .finished => none
  | .tasking num =>
      match num, s.cmdList with
      | num + 1, ci :: rest =>
          some { s.update ci ((s.records ci).put .issuing) with
            cmdList := rest
            loop := .issuing ci num }
      | _, _ => some { s with mutex := none, loop := .idle }
  | .issuing ci num =>
      match s.ac.asyncCommand (some 0) ci (s.records ci).cmd with
      | none => none
      | some (.ok, ac) =>
          some { s.update ci ((s.records ci).touch.put .held) with
            ac := ac
            loop := .tasking num }
      | some (.err, ac) =>
          some { s.update ci ((s.records ci).touch.put .refused) with
            ac := ac
            loop := .tasking num }
  | .replying ci reply next =>
      some { s.update ci (((s.records ci).count (-1)).put .called) with
        loop :=
          if (s.records ci).reference - 1 ≤ 0 then .destroying ci next
          else .writing ci reply next }
  | .writing ci reply next =>
      some { s.update ci { (s.records ci).touch with reply := reply } with
        loop := .posting ci next }
  | .posting ci next =>
      some { s.update ci { (s.records ci).touch with posts := (s.records ci).posts + 1 } with
        loop := next.at }
  | .destroying ci next =>
      some { s.update ci (s.records ci).touch with loop := .freeing ci next }
  | .freeing ci next => some { s.update ci (s.records ci).free with loop := next.at }
  | .ending =>
      match nextPending s.ac with
      | some (cb, ac) => some ({ s with ac := ac }.runCallback cb false .ending)
      | none =>
          if Lost s.ac then
            if s.mutex = none then some { s with mutex := some .loop, loop := .clearing } else none
          else some { s with loop := .scrapping }
  | .clearing =>
      match s.cmdList with
      | ci :: rest =>
          some { s.update ci ((s.records ci).put .taken) with
            cmdList := rest
            loop := .dropping ci }
      | [] => some { s with connected := false, loop := .unlocking }
  | .dropping ci =>
      some { s.update ci (((s.records ci).count (-1)).put .dropped) with
        loop :=
          if (s.records ci).reference - 1 = 0 then .destroying ci .clearing else .clearing }
  | .unlocking => some { s with mutex := none, loop := .scrapping }
  | .scrapping =>
      match s.cmdList with
      | ci :: rest => some { s.update ci ((s.records ci).free.put .scrapped) with cmdList := rest }
      | [] => some { s with loop := .finished }

/-- The event loop takes up something new. -/
def whenIdle (s : Sharing) (next : Option Sharing) : Option Sharing :=
  if s.loop = .idle then next else none

def step (s : Sharing) : Action → Option Sharing
  | .call ci cmd =>
      if (s.records ci).pc = .absent then some (s.update ci (.create cmd)) else none
  | .caller ci => s.stepCaller ci
  -- The reconnect thread sets `xc->ctx` under `xc->mutex`.
  | .context hasCtx => if s.mutex = none then some { s with hasCtx := hasCtx } else none
  | .task num =>
      s.whenIdle <|
        if s.mutex = none then
          if s.connected then some { s with mutex := some .loop, loop := .tasking num } else some s
        else none
  | .read reply =>
      s.whenIdle <|
        match s.ac.pickCallback s.cb reply with
        | none => none
        | some (.run cb ac) => some ({ s with ac := ac, cb := cb }.runCallback cb true .replies)
        | some (.disconnect ac) => some { s with ac := { ac with err := ac.cErr }, loop := .ending }
  | .endCall =>
      s.whenIdle <|
        some { s with
          cb := .null
          ac :=
            if s.ac.flags.monitoring then { s.ac with replies := s.ac.replies ++ [s.cb] }
            else s.ac }
  | .close err =>
      s.whenIdle <|
        if err = none ∧ s.ac.replies ≠ [] then none
        else
          some { s with
            ac := { s.ac with
              cErr := err
              err := err
              flags := { s.ac.flags with disconnecting := err ≠ none || s.ac.flags.disconnecting } }
            loop := .ending }
  | .free =>
      s.whenIdle <|
        some { s with
          ac := { s.ac with flags := { s.ac.flags with freeing := true } }
          loop := .ending }
  | .loop => s.stepLoop

/-- A connected context without commands, and no caller yet. -/
def fresh : Sharing where
  ac := { AsyncContext.redisAsyncInitialize none true true with
    flags := ⟨true, false, false, false, false, false⟩ }
  cb := .null
  connected := true
  hasCtx := true
  mutex := none
  cmdList := []
  records := fun _ ↦ .absent
  loop := .idle

def machine : Machine Sharing Action := ⟨(· = fresh), step⟩

/-- No record was freed twice or used after it was freed. -/
def Safe (s : Sharing) : Prop :=
  ∀ ci, (s.records ci).freed ≤ 1 ∧ (s.records ci).stale = false

/-- What a step in the event loop's functions does and what it checks. -/
inductive LoopStep (s : Sharing) : Sharing → Prop
  | take {num ci : ℕ} {rest : List ℕ} (hl : s.loop = .tasking (num + 1))
      (hlist : s.cmdList = ci :: rest) :
      s.LoopStep { s.update ci ((s.records ci).put .issuing) with
        cmdList := rest
        loop := .issuing ci num }
  | taken {num : ℕ} (hl : s.loop = .tasking num) (hdone : num = 0 ∨ s.cmdList = []) :
      s.LoopStep { s with mutex := none, loop := .idle }
  | issue {ci num : ℕ} {status : Status} {ac : AsyncContext} (hl : s.loop = .issuing ci num)
      (hcmd : s.ac.asyncCommand (some 0) ci (s.records ci).cmd = some (status, ac)) :
      s.LoopStep { s.update ci ((s.records ci).touch.put
          (if status = .ok then .held else .refused)) with
        ac := ac
        loop := .tasking num }
  | reply {ci : ℕ} {reply : Bool} {next : Resume}
      (hl : s.loop = .replying ci reply next) :
      s.LoopStep { s.update ci (((s.records ci).count (-1)).put .called) with
        loop :=
          if (s.records ci).reference - 1 ≤ 0 then .destroying ci next
          else .writing ci reply next }
  | write {ci : ℕ} {reply : Bool} {next : Resume}
      (hl : s.loop = .writing ci reply next) :
      s.LoopStep { s.update ci { (s.records ci).touch with reply := reply } with
        loop := .posting ci next }
  | post {ci : ℕ} {next : Resume} (hl : s.loop = .posting ci next) :
      s.LoopStep
        { s.update ci { (s.records ci).touch with posts := (s.records ci).posts + 1 } with
          loop := next.at }
  | destroy {ci : ℕ} {next : Resume} (hl : s.loop = .destroying ci next) :
      s.LoopStep { s.update ci (s.records ci).touch with loop := .freeing ci next }
  | free {ci : ℕ} {next : Resume} (hl : s.loop = .freeing ci next) :
      s.LoopStep { s.update ci (s.records ci).free with loop := next.at }
  | pending {cb : RedisCallback} {ac : AsyncContext} (hl : s.loop = .ending)
      (hnext : nextPending s.ac = some (cb, ac)) :
      s.LoopStep ({ s with ac := ac }.runCallback cb false .ending)
  | lose (hl : s.loop = .ending) (hnext : nextPending s.ac = none) (hlost : Lost s.ac)
      (hmutex : s.mutex = none) : s.LoopStep { s with mutex := some .loop, loop := .clearing }
  | leave (hl : s.loop = .ending) (hnext : nextPending s.ac = none) (hlost : ¬Lost s.ac) :
      s.LoopStep { s with loop := .scrapping }
  | clear {ci : ℕ} {rest : List ℕ} (hl : s.loop = .clearing) (hlist : s.cmdList = ci :: rest) :
      s.LoopStep { s.update ci ((s.records ci).put .taken) with
        cmdList := rest
        loop := .dropping ci }
  | cleared (hl : s.loop = .clearing) (hlist : s.cmdList = []) :
      s.LoopStep { s with connected := false, loop := .unlocking }
  | drop {ci : ℕ} (hl : s.loop = .dropping ci) :
      s.LoopStep { s.update ci (((s.records ci).count (-1)).put .dropped) with
        loop :=
          if (s.records ci).reference - 1 = 0 then .destroying ci .clearing else .clearing }
  | unlock (hl : s.loop = .unlocking) : s.LoopStep { s with mutex := none, loop := .scrapping }
  | scrap {ci : ℕ} {rest : List ℕ} (hl : s.loop = .scrapping) (hlist : s.cmdList = ci :: rest) :
      s.LoopStep { s.update ci ((s.records ci).free.put .scrapped) with cmdList := rest }
  | scrapped (hl : s.loop = .scrapping) (hlist : s.cmdList = []) :
      s.LoopStep { s with loop := .finished }

theorem loopStep_cases {s s' : Sharing} (h : s.stepLoop = some s') : s.LoopStep s' := by
  unfold stepLoop at h
  cases hl : s.loop with
  | idle => simp [hl] at h
  | finished => simp [hl] at h
  | tasking num =>
      cases num with
      | zero =>
          simp only [hl] at h
          exact Option.some.inj h ▸ .taken hl (.inl rfl)
      | succ num =>
          cases hlist : s.cmdList with
          | nil =>
              simp only [hl, hlist] at h
              exact Option.some.inj h ▸ hlist ▸ .taken hl (.inr hlist)
          | cons ci rest =>
              simp only [hl, hlist] at h
              exact Option.some.inj h ▸ .take hl hlist
  | issuing ci num =>
      simp only [hl] at h
      split at h
      · simp at h
      · rename_i ac hcmd
        exact Option.some.inj h ▸ .issue hl hcmd
      · rename_i ac hcmd
        exact Option.some.inj h ▸ .issue hl hcmd
  | replying ci reply next =>
      simp only [hl] at h
      exact Option.some.inj h ▸ .reply hl
  | writing ci reply next =>
      simp only [hl] at h
      exact Option.some.inj h ▸ .write hl
  | posting ci next =>
      simp only [hl] at h
      exact Option.some.inj h ▸ .post hl
  | destroying ci next =>
      simp only [hl] at h
      exact Option.some.inj h ▸ .destroy hl
  | freeing ci next =>
      simp only [hl] at h
      exact Option.some.inj h ▸ .free hl
  | ending =>
      simp only [hl] at h
      split at h <;> rename_i hnext
      · exact Option.some.inj h ▸ .pending hl hnext
      · split at h <;> rename_i hlost
        · split at h
          · rename_i hmutex
            exact Option.some.inj h ▸ .lose hl hnext hlost hmutex
          · simp at h
        · exact Option.some.inj h ▸ .leave hl hnext hlost
  | clearing =>
      simp only [hl] at h
      split at h <;> rename_i hlist
      · exact Option.some.inj h ▸ .clear hl hlist
      · exact Option.some.inj h ▸ .cleared hl hlist
  | dropping ci =>
      simp only [hl] at h
      exact Option.some.inj h ▸ .drop hl
  | unlocking =>
      simp only [hl] at h
      exact Option.some.inj h ▸ .unlock hl
  | scrapping =>
      simp only [hl] at h
      split at h <;> rename_i hlist
      · exact Option.some.inj h ▸ .scrap hl hlist
      · exact Option.some.inj h ▸ .scrapped hl hlist

/-- What a step does and what it checks.  The steps of the callers are left to
`stepCaller`, those in the event loop's functions to `loopStep_cases`. -/
inductive Step (s : Sharing) : Action → Sharing → Prop
  | call {ci : ℕ} {cmd : List UInt8} (habsent : (s.records ci).pc = .absent) :
      s.Step (.call ci cmd) (s.update ci (.create cmd))
  | caller {ci : ℕ} {s' : Sharing} (hcaller : s.stepCaller ci = some s') : s.Step (.caller ci) s'
  | context {hasCtx : Bool} (hmutex : s.mutex = none) :
      s.Step (.context hasCtx) { s with hasCtx := hasCtx }
  | task {num : ℕ} (hidle : s.loop = .idle) (hmutex : s.mutex = none)
      (hconnected : s.connected = true) :
      s.Step (.task num) { s with mutex := some .loop, loop := .tasking num }
  | taskLost {num : ℕ} (hidle : s.loop = .idle) (hmutex : s.mutex = none)
      (hconnected : s.connected = false) : s.Step (.task num) s
  | read {reply : ReplyTree} {cb : RedisCallback} {ac : AsyncContext} (hidle : s.loop = .idle)
      (hpick : s.ac.pickCallback s.cb reply = some (.run cb ac)) :
      s.Step (.read reply) ({ s with ac := ac, cb := cb }.runCallback cb true .replies)
  | readError {reply : ReplyTree} {ac : AsyncContext} (hidle : s.loop = .idle)
      (hpick : s.ac.pickCallback s.cb reply = some (.disconnect ac)) :
      s.Step (.read reply) { s with ac := { ac with err := ac.cErr }, loop := .ending }
  | endCall (hidle : s.loop = .idle) :
      s.Step .endCall { s with
        cb := .null
        ac :=
          if s.ac.flags.monitoring then { s.ac with replies := s.ac.replies ++ [s.cb] }
          else s.ac }
  | close {err : Option RedisErr} (hidle : s.loop = .idle)
      (hclean : ¬(err = none ∧ s.ac.replies ≠ [])) :
      s.Step (.close err) { s with
        ac := { s.ac with
          cErr := err
          err := err
          flags := { s.ac.flags with disconnecting := err ≠ none || s.ac.flags.disconnecting } }
        loop := .ending }
  | free (hidle : s.loop = .idle) :
      s.Step .free { s with
        ac := { s.ac with flags := { s.ac.flags with freeing := true } }
        loop := .ending }
  | loop {s' : Sharing} (hloop : s.stepLoop = some s') : s.Step .loop s'

theorem step_cases {s s' : Sharing} {a : Action} (h : s.step a = some s') : s.Step a s' := by
  cases a with
  | call ci cmd =>
      simp only [step, Option.ite_none_right_eq_some, Option.some.injEq] at h
      obtain ⟨habsent, rfl⟩ := h
      exact .call habsent
  | caller ci => exact .caller h
  | context hasCtx =>
      simp only [step, Option.ite_none_right_eq_some, Option.some.injEq] at h
      obtain ⟨hmutex, rfl⟩ := h
      exact .context hmutex
  | task num =>
      simp only [step, whenIdle, Option.ite_none_right_eq_some] at h
      obtain ⟨hidle, hmutex, h⟩ := h
      split at h <;> rename_i hconnected
      · exact Option.some.inj h ▸ .task hidle hmutex hconnected
      · exact Option.some.inj h ▸ .taskLost hidle hmutex (Bool.eq_false_of_not_eq_true hconnected)
  | read reply =>
      simp only [step, whenIdle, Option.ite_none_right_eq_some] at h
      obtain ⟨hidle, h⟩ := h
      split at h
      · simp at h
      · rename_i cb ac hpick
        exact Option.some.inj h ▸ .read hidle hpick
      · rename_i ac hpick
        exact Option.some.inj h ▸ .readError hidle hpick
  | endCall =>
      simp only [step, whenIdle, Option.ite_none_right_eq_some, Option.some.injEq] at h
      obtain ⟨hidle, rfl⟩ := h
      exact .endCall hidle
  | close err =>
      simp only [step, whenIdle, Option.ite_none_right_eq_some,
        Option.ite_none_left_eq_some, Option.some.injEq] at h
      obtain ⟨hidle, hclean, rfl⟩ := h
      exact .close hidle hclean
  | free =>
      simp only [step, whenIdle, Option.ite_none_right_eq_some, Option.some.injEq] at h
      obtain ⟨hidle, rfl⟩ := h
      exact .free hidle
  | loop => exact .loop h

end Sharing

/-- What the event loop is about to do with a record. -/
inductive Grip where
  | none
  | issue
  | reply
  | write
  | free
  | drop
  deriving DecidableEq, Repr

/-- The record that the event loop is working on. -/
def LoopAt.target : LoopAt → Option (ℕ × Grip)
  | .issuing ci _ => some (ci, .issue)
  | .replying ci _ _ => some (ci, .reply)
  | .writing ci _ _ | .posting ci _ => some (ci, .write)
  | .destroying ci _ | .freeing ci _ => some (ci, .free)
  | .dropping ci => some (ci, .drop)
  | _ => none

def LoopAt.grip (l : LoopAt) (ci : ℕ) : Grip :=
  match l.target with
  | some (cj, g) => if cj = ci then g else .none
  | none => .none

/-- The caller has given up its reference and does not own the record. -/
def CallerAt.left : CallerAt → Bool
  | .searching | .withdrawing | .checking | .done => true
  | _ => false

namespace Sharing

/-- The callback has been run for its record before. -/
def Again (s : Sharing) (cb : RedisCallback) : Prop :=
  cb.fn ≠ none ∧ (s.records cb.privdata).place = .called

instance (s : Sharing) : DecidablePred s.Again := fun _ ↦ inferInstanceAs (Decidable (_ ∧ _))

/-- The callback that a reply goes to. -/
def picked (s : Sharing) (reply : ReplyTree) : Option RedisCallback :=
  match s.ac.pickCallback s.cb reply with
  | some (.run cb _) => some cb
  | _ => none

/-- The condition on the steps.  A caller does not free its record while
`replyCallback` has still to store the reply or to post it; a caller that finds
the connection lost has withdrawn its record from `cmd_list`, or the context
refused the command; `replyCallback` does not run twice for a record; and
`__redisAsyncFree` frees only queued records whose callers have left. -/
def Owned (s : Sharing) : Action → Prop
  | .caller ci =>
      ((s.records ci).pc = .freeing → s.loop.grip ci ≠ .write) ∧
        ((s.records ci).pc = .checking → s.connected = true ∨
          (s.records ci).place = .withdrawn ∨ (s.records ci).place = .refused)
  | .read reply => ∀ cb ∈ s.picked reply, ¬s.Again cb
  | .loop =>
      (s.loop = .ending → ∀ cb ∈ (nextPending s.ac).map Prod.fst, ¬s.Again cb) ∧
        (s.loop = .scrapping → ∀ ci ∈ s.cmdList.head?, (s.records ci).pc.left = true)
  | _ => True

instance (s : Sharing) : DecidablePred s.Owned
  | .caller _ => inferInstanceAs (Decidable ((_ → _) ∧ (_ → _ ∨ _ ∨ _)))
  | .read _ => inferInstanceAs (Decidable (∀ cb ∈ _, ¬_))
  | .loop => inferInstanceAs (Decidable ((_ → ∀ cb ∈ _, ¬_) ∧ (_ → ∀ ci ∈ _, _ = true)))
  | .call _ _ | .context _ | .task _ | .endCall | .close _ | .free => .isTrue trivial

end Sharing

/-! ## One record -/

namespace CmdRecord

/-- The event loop still counts its reference to the record. -/
def Kept (g : Grip) : Place → Prop
  | .queued | .refused | .withdrawn => g = .none
  | .taken => g = .drop
  | .issuing => g = .issue
  | .held => g = .none ∨ g = .reply
  | _ => False

/-- The record is freed, or the event loop is about to. -/
def Gone (g : Grip) (r : CmdRecord) : Prop :=
  (r.place = .called ∨ r.place = .dropped) ∧ (g = .free ∧ r.freed = 0 ∨ g = .none ∧ r.freed = 1) ∨
    r.place = .scrapped ∧ g = .none ∧ r.freed = 1

/-- What is known of a record from where its caller and the event loop are. -/
def Sound (g : Grip) (r : CmdRecord) : Prop :=
  r.stale = false ∧
    match r.pc with
    | .absent => r.place = .unseen ∧ g = .none ∧ r.freed = 0
    | .created | .locked | .noContext =>
        r.place = .unseen ∧ g = .none ∧ r.freed = 0 ∧ r.reference = 1
    | .counted | .refused | .refusedFreeing | .adding =>
        r.place = .unseen ∧ g = .none ∧ r.freed = 0 ∧ r.reference = 2
    | .refusedFreed => r.place = .unseen ∧ g = .none ∧ r.freed = 1
    | .added | .looking | .waiting | .reading | .dropping =>
        r.freed = 0 ∧
          (r.reference = 2 ∧ Kept g r.place ∧ r.place ≠ .withdrawn ∨
            r.reference = 1 ∧ (r.place = .called ∧ (g = .none ∨ g = .write) ∨
              r.place = .dropped ∧ g = .none))
    | .destroying | .freeing =>
        r.freed = 0 ∧ (r.place = .called ∧ (g = .none ∨ g = .write) ∨
          (r.place = .dropped ∨ r.place = .withdrawn ∨ r.place = .refused) ∧ g = .none)
    | .searching | .withdrawing => r.freed = 0 ∧ r.reference = 1 ∧ Kept g r.place ∨ Gone g r
    | .checking =>
        r.freed = 0 ∧ r.reference = 1 ∧ Kept g r.place ∧ r.place ≠ .queued ∨ Gone g r
    | .done =>
        r.freed = 0 ∧ r.reference = 1 ∧ Kept g r.place ∧ r.place ≠ .queued ∨ Gone g r ∨
          (r.place = .withdrawn ∨ r.place = .refused ∨ r.place = .unseen) ∧ g = .none ∧ r.freed = 1

theorem touch_eq {r : CmdRecord} (h : r.freed = 0) : r.touch = r := by
  cases r
  simp_all [touch]

/-- The places where the event loop does not count its reference. -/
theorem Kept.place {g : Grip} {p : Place} (h : Kept g p) :
    p ≠ .unseen ∧ p ≠ .called ∧ p ≠ .dropped ∧ p ≠ .scrapped := by
  cases p <;> first | exact h.elim | simp

theorem not_kept {g : Grip} {p : Place} (hg : g = .write ∨ g = .free) : ¬Kept g p := by
  rcases hg with rfl | rfl <;> cases p <;> simp [Kept]

/-- As long as the event loop counts its reference, the record is there. -/
theorem Sound.freed_eq {g : Grip} {r : CmdRecord} (h : Sound g r) (hkept : Kept g r.place)
    (hw : r.place ≠ .withdrawn) (hr : r.place ≠ .refused) : r.freed = 0 := by
  obtain ⟨hunseen, hcalled, hdropped, hscrapped⟩ := hkept.place
  obtain ⟨-, h⟩ := h
  cases hpc : r.pc <;> simp_all [Gone]

/-- The record that the event loop is working on is there. -/
theorem Sound.of_grip {g : Grip} {r : CmdRecord} (h : Sound g r) (hg : g ≠ .none) :
    r.freed = 0 ∧ (Kept g r.place ∨ r.place = .called ∧ g = .write ∨
      (r.place = .called ∨ r.place = .dropped) ∧ g = .free) := by
  obtain ⟨-, h⟩ := h
  cases hpc : r.pc <;> simp only [hpc, Gone] at h <;> tauto

theorem Sound.freed_of_grip {g : Grip} {r : CmdRecord} (h : Sound g r) (hg : g ≠ .none) :
    r.freed = 0 := (h.of_grip hg).1

/-- Where the event loop has taken hold of a record. -/
theorem Sound.place_of_grip {g : Grip} {r : CmdRecord} (h : Sound g r) :
    (g = .issue → r.place = .issuing) ∧ (g = .reply → r.place = .held) ∧
      (g = .drop → r.place = .taken) := by
  refine ⟨?_, ?_, ?_⟩ <;> rintro rfl
  all_goals
    obtain ⟨-, hkept | ⟨-, hg⟩ | ⟨-, hg⟩⟩ := h.of_grip (by simp)
    · cases hplace : r.place <;> simp [hplace, Kept] at hkept ⊢
    · cases hg
    · cases hg

/-- The event loop takes hold of the record, or lets go of it, and moves it on. -/
theorem Sound.move {g k : Grip} {r : CmdRecord} {p : Place} (h : Sound g r)
    (hkept : Kept g r.place) (hkept' : Kept k p) (hq : p ≠ .queued)
    (hw : r.place ≠ .withdrawn) (hr : r.place ≠ .refused) (hw' : p ≠ .withdrawn) :
    Sound k (r.put p) := by
  have hfreed := h.freed_eq hkept hw hr
  obtain ⟨hunseen, hcalled, hdropped, hscrapped⟩ := hkept.place
  obtain ⟨hstale, h⟩ := h
  refine ⟨hstale, ?_⟩
  cases hpc : r.pc <;> simp_all [put, Gone]

/-- The event loop counts its reference down, in `replyCallback` or in
`disconnectedCallback`. -/
theorem Sound.countDown {g : Grip} {r : CmdRecord} (h : Sound g r) (hg : g = .reply ∨ g = .drop) :
    Sound (if r.reference - 1 = 0 then .free else if g = .reply then .write else .none)
      ((r.count (-1)).put (if g = .reply then .called else .dropped)) ∧
    (r.reference - 1 ≤ 0 ↔ r.reference - 1 = 0) := by
  obtain ⟨-, hreply, hdrop⟩ := h.place_of_grip
  have hfreed : r.freed = 0 := h.freed_of_grip (by rcases hg with rfl | rfl <;> simp)
  obtain ⟨hstale, h⟩ := h
  have hcount : r.count (-1) = { r with reference := r.reference - 1 } := by
    rw [count, touch_eq hfreed]
    rfl
  rw [hcount]
  rcases hg with rfl | rfl
  · have hplace := hreply rfl
    cases hpc : r.pc <;> simp_all [Sound, Kept, put, Gone]
  · have hplace := hdrop rfl
    cases hpc : r.pc <;> simp_all [Sound, Kept, put, Gone]

/-- The event loop uses the record that it has hold of. -/
theorem Sound.use {r r' : CmdRecord} {g g' : Grip} (h : Sound g r)
    (hg : g = .write ∧ (g' = .write ∨ g' = .none) ∨ g = .free ∧ g' = .free)
    (hpc : r'.pc = r.pc) (hplace : r'.place = r.place) (href : r'.reference = r.reference)
    (hfreed : r'.freed = r.freed) (hstale : r'.stale = r.touch.stale) : Sound g' r' := by
  have hzero : r.freed = 0 := h.freed_of_grip (by rcases hg with ⟨rfl, -⟩ | ⟨rfl, -⟩ <;> simp)
  rw [touch_eq hzero] at hstale
  have hnot : ¬Kept g r.place := not_kept (hg.imp And.left And.left)
  obtain ⟨hs, h⟩ := h
  refine ⟨hstale.trans hs, ?_⟩
  rw [hpc, hplace, href, hfreed, Gone, hplace, hfreed]
  rcases hg with ⟨rfl, rfl | rfl⟩ | ⟨rfl, rfl⟩ <;> cases hp : r.pc <;>
    simp_all [Gone]

theorem Sound.freeLoop {r : CmdRecord} (h : Sound .free r) : Sound .none r.free := by
  have hnot : ¬Kept .free r.place := not_kept (.inr rfl)
  obtain ⟨hs, h⟩ := h
  refine ⟨hs, ?_⟩
  cases hp : r.pc <;> simp_all [Gone, free]

/-- `__redisAsyncFree` frees a queued record whose caller has left. -/
theorem Sound.scrap {r : CmdRecord} (h : Sound .none r) (hplace : r.place = .queued)
    (hleft : r.pc.left = true) : Sound .none (r.free.put .scrapped) := by
  obtain ⟨hs, h⟩ := h
  refine ⟨hs, ?_⟩
  cases hp : r.pc <;> simp_all [Kept, Gone, free, put, CallerAt.left]

end CmdRecord

/-! ## The grip of the event loop -/

namespace LoopAt

theorem grip_of_none {l : LoopAt} (h : l.target = none) (ci : ℕ) : l.grip ci = .none := by
  rw [grip, h]

theorem grip_self {l : LoopAt} {i : ℕ} {g : Grip} (h : l.target = some (i, g)) :
    l.grip i = g := by
  rw [grip, h]
  exact if_pos rfl

theorem grip_other {l : LoopAt} {i j : ℕ} {g : Grip} (h : l.target = some (i, g))
    (hne : j ≠ i) : l.grip j = .none := by
  rw [grip, h]
  exact if_neg (Ne.symm hne)

theorem target_resume (next : Resume) : next.at.target = none := by
  cases next <;> rfl

end LoopAt

namespace Sharing

/-- The invariant of the callers and the event loop. -/
structure Sound (s : Sharing) : Prop where
  record : ∀ ci, (s.records ci).Sound (s.loop.grip ci)
  queue : ∀ ci, ci ∈ s.cmdList ↔ (s.records ci).place = .queued
  nodup : s.cmdList.Nodup
  callbacks : ∀ cb, s.ac.Registered cb ∨ cb = s.cb → cb.fn ≠ none →
    (s.records cb.privdata).place = .held ∨ (s.records cb.privdata).place = .called

theorem Sound.safe {s : Sharing} (h : s.Sound) : s.Safe := by
  intro ci
  obtain ⟨hstale, hr⟩ := h.record ci
  refine ⟨?_, hstale⟩
  cases hpc : (s.records ci).pc <;> simp only [hpc, CmdRecord.Gone] at hr <;> omega

theorem Sound.update {s s' : Sharing} (h : s.Sound) (ci : ℕ) (r : CmdRecord)
    (hrecords : s'.records = Function.update s.records ci r)
    (hsound : r.Sound (s'.loop.grip ci))
    (hgrip : ∀ cj, cj ≠ ci → s'.loop.grip cj = s.loop.grip cj)
    (hqueue : ∀ cj, cj ∈ s'.cmdList ↔ if cj = ci then r.place = .queued else cj ∈ s.cmdList)
    (hnodup : s'.cmdList.Nodup)
    (hplace : (s.records ci).place = .held ∨ (s.records ci).place = .called →
      r.place = .held ∨ r.place = .called)
    (hcallbacks : ∀ cb, s'.ac.Registered cb ∨ cb = s'.cb → cb.fn ≠ none →
      (s.ac.Registered cb ∨ cb = s.cb) ∨ cb.privdata = ci ∧ r.place = .held) : s'.Sound := by
  have hself : s'.records ci = r := by rw [hrecords, Function.update_self]
  have hother : ∀ cj, cj ≠ ci → s'.records cj = s.records cj := by
    intro cj hne
    rw [hrecords, Function.update_of_ne hne]
  refine ⟨?_, ?_, hnodup, ?_⟩
  · intro cj
    by_cases hcj : cj = ci
    · subst hcj
      rw [hself]
      exact hsound
    · rw [hother cj hcj, hgrip cj hcj]
      exact h.record cj
  · intro cj
    rw [hqueue cj]
    split
    · rename_i hcj
      rw [hcj, hself]
    · rename_i hcj
      rw [hother cj hcj]
      exact h.queue cj
  · intro cb hcb hfn
    rcases hcallbacks cb hcb hfn with hold | ⟨hci, hheld⟩
    · have hp := h.callbacks cb hold hfn
      by_cases hci : cb.privdata = ci
      · rw [hci, hself]
        exact hplace (hci ▸ hp)
      · rw [hother _ hci]
        exact hp
    · rw [hci, hself]
      exact Or.inl hheld

theorem Sound.step {s s' : Sharing} (h : s.Sound) {ci : ℕ} {r : CmdRecord}
    (hrecords : s'.records = Function.update s.records ci r)
    (hsound : r.Sound (s'.loop.grip ci))
    (hgrip : ∀ cj, cj ≠ ci → s'.loop.grip cj = s.loop.grip cj)
    (hlist : s'.cmdList = s.cmdList)
    (hqueue : r.place = .queued ↔ (s.records ci).place = .queued)
    (hplace : (s.records ci).place = .held ∨ (s.records ci).place = .called →
      r.place = .held ∨ r.place = .called)
    (hac : s'.ac = s.ac) (hcb : s'.cb = s.cb) : s'.Sound := by
  refine h.update _ _ hrecords hsound hgrip ?_ (hlist ▸ h.nodup) hplace ?_
  · intro cj
    rw [hlist]
    split
    · rename_i hcj
      rw [hcj, h.queue ci, hqueue]
    · rfl
  · intro cb hreg _
    rw [hac, hcb] at hreg
    exact Or.inl hreg

/-- A step of a caller that leaves its record where the event loop has it. -/
theorem Sound.caller {s s' : Sharing} (h : s.Sound) {i : ℕ} {r : CmdRecord}
    (hrecords : s'.records = Function.update s.records i r)
    (hsound : r.Sound (s.loop.grip i)) (hplace : r.place = (s.records i).place)
    (hloop : s'.loop = s.loop) (hlist : s'.cmdList = s.cmdList) (hac : s'.ac = s.ac)
    (hcb : s'.cb = s.cb) : s'.Sound :=
  h.step hrecords (hloop ▸ hsound) (fun _ _ ↦ by rw [hloop]) hlist (by rw [hplace])
    (by rw [hplace]; exact id) hac hcb

theorem Sound.stepCaller {s s' : Sharing} (h : s.Sound) {ci : ℕ} (howned : s.Owned (.caller ci))
    (hstep : s.stepCaller ci = some s') : s'.Sound := by
  have hr := h.record ci
  have hcaller : ∀ {r : CmdRecord} {s'' : Sharing}, r.Sound (s.loop.grip ci) →
      r.place = (s.records ci).place → s''.records = Function.update s.records ci r →
      s''.loop = s.loop → s''.cmdList = s.cmdList → s''.ac = s.ac → s''.cb = s.cb → s''.Sound :=
    fun hs hp hrec hl hcl hac hcb ↦ h.caller hrec hs hp hl hcl hac hcb
  unfold Sharing.stepCaller at hstep
  obtain ⟨hfreeing, hchecking⟩ := howned
  obtain ⟨hstale, hpcs⟩ := hr
  cases hpc : (s.records ci).pc <;> simp only [hpc] at hstep hpcs
  case absent => simp at hstep
  case done => simp at hstep
  case created =>
      split at hstep
      · obtain rfl := Option.some.inj hstep
        exact hcaller (r := (s.records ci).goto .locked) ⟨hstale, hpcs⟩ rfl rfl rfl rfl rfl rfl
      · simp at hstep
  case locked =>
      obtain ⟨hplace, hgrip, hfreed, href⟩ := hpcs
      split at hstep <;> obtain rfl := Option.some.inj hstep
      · refine hcaller (r := ((s.records ci).count 1).goto .counted) ?_ rfl rfl rfl rfl rfl rfl
        rw [CmdRecord.count, CmdRecord.touch_eq hfreed]
        exact ⟨hstale, hplace, hgrip, hfreed, by simp [CmdRecord.goto, href]⟩
      · exact hcaller (r := (s.records ci).goto .noContext)
          ⟨hstale, hplace, hgrip, hfreed, href⟩ rfl rfl rfl rfl rfl rfl
  case noContext =>
      obtain ⟨hplace, hgrip, hfreed, -⟩ := hpcs
      obtain rfl := Option.some.inj hstep
      refine hcaller (r := (s.records ci).free.goto .done) ⟨hstale, Or.inr (Or.inr ?_)⟩ rfl rfl rfl
        rfl rfl rfl
      exact ⟨Or.inr (Or.inr hplace), hgrip, by simp [CmdRecord.goto, CmdRecord.free, hfreed]⟩
  case counted =>
      obtain rfl := Option.some.inj hstep
      refine hcaller (r := (s.records ci).goto (if s.connected then .adding else .refused))
        ⟨hstale, ?_⟩ rfl rfl rfl rfl rfl rfl
      cases s.connected <;> exact hpcs
  case refused =>
      obtain ⟨hplace, hgrip, hfreed, href⟩ := hpcs
      obtain rfl := Option.some.inj hstep
      refine hcaller (r := (s.records ci).touch.goto .refusedFreeing) ?_ rfl rfl rfl rfl rfl rfl
      rw [CmdRecord.touch_eq hfreed]
      exact ⟨hstale, hplace, hgrip, hfreed, href⟩
  case refusedFreeing =>
      obtain ⟨hplace, hgrip, hfreed, -⟩ := hpcs
      obtain rfl := Option.some.inj hstep
      exact hcaller (r := (s.records ci).free.goto .refusedFreed) ⟨hstale, hplace, hgrip,
        by simp [CmdRecord.goto, CmdRecord.free, hfreed]⟩ rfl rfl rfl rfl rfl rfl
  case refusedFreed =>
      obtain ⟨hplace, hgrip, hfreed⟩ := hpcs
      obtain rfl := Option.some.inj hstep
      exact hcaller (r := (s.records ci).goto .done)
        ⟨hstale, Or.inr (Or.inr ⟨Or.inr (Or.inr hplace), hgrip, hfreed⟩)⟩ rfl rfl rfl rfl rfl rfl
  case adding =>
      obtain ⟨hplace, hgrip, hfreed, href⟩ := hpcs
      obtain rfl := Option.some.inj hstep
      have hnot : ci ∉ s.cmdList := by
        rw [h.queue ci, hplace]
        simp
      refine h.update ci (((s.records ci).put .queued).goto .added) rfl
        ⟨hstale, hfreed, Or.inl ⟨href, hgrip, by simp [CmdRecord.goto, CmdRecord.put]⟩⟩
        (fun _ _ ↦ rfl) ?_ ?_ (by simp [hplace]) (fun _ hreg _ ↦ Or.inl hreg)
      · intro cj
        by_cases hcj : cj = ci <;> simp [hcj, CmdRecord.goto, CmdRecord.put]
      · exact List.nodup_append.mpr ⟨h.nodup, List.nodup_singleton ci, by
          rintro a ha b hb rfl
          exact hnot (List.mem_singleton.mp hb ▸ ha)⟩
  case added =>
      obtain rfl := Option.some.inj hstep
      exact hcaller (r := (s.records ci).goto .looking) ⟨hstale, hpcs⟩ rfl rfl rfl rfl rfl rfl
  case looking =>
      obtain rfl := Option.some.inj hstep
      refine hcaller (r := (s.records ci).touch.goto
        (if (s.records ci).reply then .reading else .waiting)) ?_ rfl rfl rfl rfl rfl rfl
      rw [CmdRecord.touch_eq hpcs.1]
      refine ⟨hstale, ?_⟩
      cases (s.records ci).reply <;> exact hpcs
  case waiting =>
      obtain rfl := Option.some.inj hstep
      refine hcaller (r := (s.records ci).touch.goto .reading) ?_ rfl rfl rfl rfl rfl rfl
      rw [CmdRecord.touch_eq hpcs.1]
      exact ⟨hstale, hpcs⟩
  case reading =>
      obtain rfl := Option.some.inj hstep
      refine hcaller (r := (s.records ci).touch.goto .dropping) ?_ rfl rfl rfl rfl rfl rfl
      rw [CmdRecord.touch_eq hpcs.1]
      exact ⟨hstale, hpcs⟩
  case dropping =>
      obtain ⟨hfreed, hshare⟩ := hpcs
      obtain rfl := Option.some.inj hstep
      refine hcaller (r := ((s.records ci).count (-1)).goto
        (if (s.records ci).reference - 1 ≤ 0 then .destroying else .searching)) ?_
        rfl rfl rfl rfl rfl rfl
      rw [CmdRecord.count, CmdRecord.touch_eq hfreed]
      refine ⟨hstale, ?_⟩
      rcases hshare with ⟨href, hkept, -⟩ | ⟨href, hgone⟩
      · simp only [CmdRecord.goto, href]
        exact Or.inl ⟨hfreed, by simp, hkept⟩
      · simp only [CmdRecord.goto, href]
        exact ⟨hfreed, hgone.imp_right fun hd ↦ ⟨Or.inl hd.1, hd.2⟩⟩
  case destroying =>
      obtain rfl := Option.some.inj hstep
      refine hcaller (r := (s.records ci).touch.goto .freeing) ?_ rfl rfl rfl rfl rfl rfl
      rw [CmdRecord.touch_eq hpcs.1]
      exact ⟨hstale, hpcs⟩
  case freeing =>
      obtain ⟨hfreed, hplace⟩ := hpcs
      obtain rfl := Option.some.inj hstep
      refine hcaller (r := (s.records ci).free.goto .done) ⟨hstale, Or.inr ?_⟩
        rfl rfl rfl rfl rfl rfl
      have hone : ((s.records ci).free.goto .done).freed = 1 := by
        simp [CmdRecord.goto, CmdRecord.free, hfreed]
      rcases hplace with ⟨hcalled, hgrip⟩ | ⟨hplace, hgrip⟩
      · exact Or.inl (Or.inl ⟨Or.inl hcalled, Or.inr ⟨hgrip.resolve_right (hfreeing hpc), hone⟩⟩)
      · rcases hplace with hplace | hplace | hplace
        · exact Or.inl (Or.inl ⟨Or.inr hplace, Or.inr ⟨hgrip, hone⟩⟩)
        · exact Or.inr ⟨Or.inl hplace, hgrip, hone⟩
        · exact Or.inr ⟨Or.inr (Or.inl hplace), hgrip, hone⟩
  case searching =>
      obtain rfl := Option.some.inj hstep
      refine hcaller (r := (s.records ci).goto
        (if ci ∈ s.cmdList then .withdrawing else .checking)) ⟨hstale, ?_⟩ rfl rfl rfl rfl rfl rfl
      by_cases hmem : ci ∈ s.cmdList
      · rw [if_pos hmem]
        exact hpcs
      · rw [if_neg hmem]
        exact hpcs.imp_left fun hk ↦ ⟨hk.1, hk.2.1, hk.2.2, fun hq ↦ hmem ((h.queue ci).mpr hq)⟩
  case withdrawing =>
      split at hstep
      · rename_i hmem
        obtain rfl := Option.some.inj hstep
        have hplace := (h.queue ci).mp hmem
        rcases hpcs with ⟨hfreed, href, hkept⟩ | hgone
        · rw [hplace] at hkept
          refine h.update ci (((s.records ci).put .withdrawn).goto .checking) rfl
            ⟨hstale, Or.inl ⟨hfreed, href, hkept, by simp [CmdRecord.goto, CmdRecord.put]⟩⟩
            (fun _ _ ↦ rfl) ?_ (h.nodup.erase ci) (by simp [hplace]) (fun _ hreg _ ↦ Or.inl hreg)
          intro cj
          rw [h.nodup.mem_erase_iff]
          by_cases hcj : cj = ci <;> simp [hcj, CmdRecord.goto, CmdRecord.put]
        · simp [CmdRecord.Gone, hplace] at hgone
      · rename_i hmem
        obtain rfl := Option.some.inj hstep
        refine hcaller (r := (s.records ci).goto .checking) ⟨hstale, ?_⟩ rfl rfl rfl rfl rfl rfl
        exact hpcs.imp_left fun hk ↦ ⟨hk.1, hk.2.1, hk.2.2, fun hq ↦ hmem ((h.queue ci).mpr hq)⟩
  case checking =>
      obtain rfl := Option.some.inj hstep
      refine hcaller (r := (s.records ci).goto (if s.connected then .done else .destroying))
        ⟨hstale, ?_⟩ rfl rfl rfl rfl rfl rfl
      cases hconn : s.connected with
      | true => exact hpcs.imp_right Or.inl
      | false =>
          have hplace := (hchecking hpc).resolve_left (by simp [hconn])
          rcases hpcs with ⟨hfreed, -, hkept, -⟩ | hgone
          · refine ⟨hfreed, Or.inr ⟨Or.inr hplace, ?_⟩⟩
            rcases hplace with hplace | hplace <;> rw [hplace] at hkept <;> exact hkept
          · rcases hplace with hplace | hplace <;> simp [CmdRecord.Gone, hplace] at hgone

theorem Sound.frame {s s' : Sharing} (h : s.Sound) (hrecords : s'.records = s.records)
    (hloop : s.loop.target = none) (hloop' : s'.loop.target = none)
    (hlist : s'.cmdList = s.cmdList)
    (hcallbacks : ∀ cb, s'.ac.Registered cb ∨ cb = s'.cb → cb.fn ≠ none →
      s.ac.Registered cb ∨ cb = s.cb) : s'.Sound := by
  refine ⟨?_, ?_, hlist ▸ h.nodup, ?_⟩
  · intro ci
    have hr := h.record ci
    rw [LoopAt.grip_of_none hloop] at hr
    rw [hrecords, LoopAt.grip_of_none hloop']
    exact hr
  · intro ci
    rw [hlist, hrecords]
    exact h.queue ci
  · intro cb hreg hfn
    rw [hrecords]
    exact h.callbacks cb (hcallbacks cb hreg hfn) hfn

theorem Sound.work {s s' : Sharing} (h : s.Sound) {ci : ℕ} {g k : Grip}
    (htarget : s.loop.target = some (ci, g)) {r : CmdRecord}
    (hrecords : s'.records = Function.update s.records ci r) (hsound : r.Sound k)
    (hself : s'.loop.grip ci = k) (hother : ∀ cj, cj ≠ ci → s'.loop.grip cj = .none)
    (hlist : s'.cmdList = s.cmdList) (hqueue : r.place = .queued ↔ (s.records ci).place = .queued)
    (hplace : (s.records ci).place = .held ∨ (s.records ci).place = .called →
      r.place = .held ∨ r.place = .called)
    (hac : s'.ac = s.ac) (hcb : s'.cb = s.cb) : s'.Sound :=
  h.step hrecords (hself ▸ hsound)
    (fun cj hne ↦ (hother cj hne).trans (LoopAt.grip_other htarget hne).symm) hlist hqueue hplace
    hac hcb

/-- The event loop takes the first record of `cmd_list`. -/
theorem Sound.pop {s s' : Sharing} (h : s.Sound) (hloop : s.loop.target = none) {ci : ℕ}
    {rest : List ℕ} (hlist : s.cmdList = ci :: rest) {r : CmdRecord}
    (hrecords : s'.records = Function.update s.records ci r) (hlist' : s'.cmdList = rest)
    (hsound : r.Sound (s'.loop.grip ci)) (hother : ∀ cj, cj ≠ ci → s'.loop.grip cj = .none)
    (hplace : r.place ≠ .queued) (hac : s'.ac = s.ac) (hcb : s'.cb = s.cb) : s'.Sound := by
  have hqueued : (s.records ci).place = .queued := (h.queue ci).mp (by simp [hlist])
  have hnodup := h.nodup
  rw [hlist, List.nodup_cons] at hnodup
  refine h.update ci r hrecords hsound ?_ ?_ (hlist' ▸ hnodup.2) (by simp [hqueued]) ?_
  · intro cj hcj
    rw [hother cj hcj, LoopAt.grip_of_none hloop]
  · intro cj
    rw [hlist', hlist]
    by_cases hcj : cj = ci
    · simp [hcj, hnodup.1, hplace]
    · simp [hcj]
  · intro cb hreg _
    rw [hac, hcb] at hreg
    exact Or.inl hreg

/-- `taskDeal` or `disconnectedCallback` takes the first record. -/
theorem Sound.take {s s' : Sharing} (h : s.Sound) (hloop : s.loop.target = none) {ci : ℕ}
    {rest : List ℕ} (hlist : s.cmdList = ci :: rest) {p : Place} {g : Grip}
    (hrecords : s'.records = Function.update s.records ci ((s.records ci).put p))
    (hlist' : s'.cmdList = rest) (htarget : s'.loop.target = some (ci, g))
    (hkept : CmdRecord.Kept g p) (hq : p ≠ .queued) (hw : p ≠ .withdrawn)
    (hac : s'.ac = s.ac) (hcb : s'.cb = s.cb) : s'.Sound := by
  have hqueued : (s.records ci).place = .queued := (h.queue ci).mp (by simp [hlist])
  have hr := h.record ci
  rw [LoopAt.grip_of_none hloop] at hr
  refine h.pop hloop hlist hrecords hlist' ?_ (fun cj hcj ↦ LoopAt.grip_other htarget hcj) hq
    hac hcb
  rw [LoopAt.grip_self htarget]
  exact hr.move (by simp [hqueued, CmdRecord.Kept]) hkept hq (by simp [hqueued]) (by simp [hqueued])
    hw

theorem nextPending_registered {ac ac' : AsyncContext} {cb : RedisCallback}
    (h : nextPending ac = some (cb, ac')) :
    ac.Registered cb ∧ ∀ cb', ac'.Registered cb' → ac.Registered cb' := by
  unfold nextPending at h
  split at h
  · rename_i p hs
    exact AsyncContext.shiftReplies_registered (Option.some.inj h ▸ hs)
  · split at h
    · rename_i p hs
      exact AsyncContext.shiftInvalid_registered (Option.some.inj h ▸ hs)
    · have herase : ∀ (d : CallbackDict) (name n : List UInt8) (c : RedisCallback),
          (⟨n, c⟩ : Sigma fun _ ↦ RedisCallback) ∈ (d.erase name).entries → ⟨n, c⟩ ∈ d.entries :=
        fun d name n c hd ↦ (List.kerase_sublist name d.entries).subset hd
      split at h
      · rename_i e rest hchannels
        obtain ⟨rfl, rfl⟩ := Prod.mk.inj (Option.some.inj h)
        refine ⟨Or.inr (Or.inr ⟨false, e.1, ?_⟩), ?_⟩
        · show _ ∈ ac.channels.entries
          simp [hchannels]
        · rintro cb' (h' | h' | ⟨p, n, h'⟩)
          · exact Or.inl h'
          · exact Or.inr (Or.inl h')
          · cases p
            · exact Or.inr (Or.inr ⟨false, n, herase _ _ _ _ h'⟩)
            · exact Or.inr (Or.inr ⟨true, n, h'⟩)
      · split at h
        · rename_i e rest hpatterns
          obtain ⟨rfl, rfl⟩ := Prod.mk.inj (Option.some.inj h)
          refine ⟨Or.inr (Or.inr ⟨true, e.1, ?_⟩), ?_⟩
          · show _ ∈ ac.patterns.entries
            simp [hpatterns]
          · rintro cb' (h' | h' | ⟨p, n, h'⟩)
            · exact Or.inl h'
            · exact Or.inr (Or.inl h')
            · cases p
              · exact Or.inr (Or.inr ⟨false, n, h'⟩)
              · exact Or.inr (Or.inr ⟨true, n, herase _ _ _ _ h'⟩)
        · simp at h

theorem runCallback_cases (s : Sharing) (cb : RedisCallback) (reply : Bool) (next : Resume) :
    cb.fn = none ∧ s.runCallback cb reply next = { s with loop := next.at } ∨
      cb.fn ≠ none ∧
        s.runCallback cb reply next = { s with loop := .replying cb.privdata reply next } := by
  unfold Sharing.runCallback
  cases cb.fn with
  | none => exact Or.inl ⟨rfl, rfl⟩
  | some fn => exact Or.inr ⟨by simp, rfl⟩

/-- A callback that was registered starts to run, if it was not run before. -/
theorem Sound.runCallback {s t : Sharing} (h : s.Sound) (hloop : s.loop.target = none)
    (hrecords : t.records = s.records) (hlist : t.cmdList = s.cmdList) {cb : RedisCallback}
    (hcb : s.ac.Registered cb ∨ cb = s.cb)
    (hcallbacks : ∀ c, t.ac.Registered c ∨ c = t.cb → s.ac.Registered c ∨ c = s.cb ∨ c.fn = none)
    (hagain : ¬s.Again cb) (reply : Bool) (next : Resume) :
    (t.runCallback cb reply next).Sound := by
  have hcallbacks' : ∀ c, t.ac.Registered c ∨ c = t.cb → c.fn ≠ none →
      s.ac.Registered c ∨ c = s.cb := by
    intro c hc hfn
    exact (hcallbacks c hc).imp_right fun hor ↦ hor.resolve_right hfn
  rcases t.runCallback_cases cb reply next with ⟨-, hrun⟩ | ⟨hne, hrun⟩
  · rw [hrun]
    exact h.frame hrecords hloop (LoopAt.target_resume next) hlist hcallbacks'
  · rw [hrun]
    have hheld : (s.records cb.privdata).place = .held :=
      (h.callbacks cb hcb hne).resolve_right fun hc ↦ hagain ⟨hne, hc⟩
    have hr := h.record cb.privdata
    rw [LoopAt.grip_of_none hloop] at hr
    have hmove := hr.move (k := .reply) (p := .held) (by simp [hheld, CmdRecord.Kept])
      (by simp [CmdRecord.Kept]) (by simp) (by simp [hheld]) (by simp [hheld]) (by simp)
    have hput : (s.records cb.privdata).put .held = s.records cb.privdata := by
      rw [CmdRecord.put, ← hheld]
    rw [hput] at hmove
    refine h.update cb.privdata (s.records cb.privdata) ?_ ?_ ?_ ?_
      (hlist ▸ h.nodup) id fun c hc hfn ↦ Or.inl (hcallbacks' c hc hfn)
    · rw [Function.update_eq_self]
      exact hrecords
    · rw [LoopAt.grip_self (i := cb.privdata) (g := .reply) rfl]
      exact hmove
    · intro cj hcj
      rw [LoopAt.grip_of_none hloop]
      exact LoopAt.grip_other (i := cb.privdata) (g := .reply) rfl hcj
    · intro cj
      rw [hlist]
      split
      · rename_i hcj
        rw [hcj]
        exact h.queue _
      · exact Iff.rfl

theorem Sound.stepLoop {s s' : Sharing} (h : s.Sound) (howned : s.Owned .loop)
    (hstep : s.stepLoop = some s') : s'.Sound := by
  obtain ⟨hending, hscrapping⟩ := howned
  cases loopStep_cases hstep with
  | take hl hlist =>
      exact h.take (by rw [hl]; rfl) hlist (p := .issuing) (g := .issue) rfl rfl rfl
        (by simp [CmdRecord.Kept]) (by simp) (by simp) rfl rfl
  | taken hl _ => exact h.frame rfl (by rw [hl]; rfl) rfl rfl fun _ hreg _ ↦ hreg
  | @issue ci num status ac hl hcmd =>
      have htarget : s.loop.target = some (ci, .issue) := by rw [hl]; rfl
      have hr := h.record ci
      rw [LoopAt.grip_self htarget] at hr
      have hissuing := hr.place_of_grip.1 rfl
      have htouch := CmdRecord.touch_eq (hr.freed_of_grip (by simp))
      obtain ⟨place, hplace⟩ : ∃ p : Place, p = if status = .ok then .held else .refused := ⟨_, rfl⟩
      have hends : place = .held ∨ place = .refused := by
        rw [hplace]
        split
        · exact Or.inl rfl
        · exact Or.inr rfl
      have hq : place ≠ .queued := by rcases hends with rfl | rfl <;> simp
      have hw : place ≠ .withdrawn := by rcases hends with rfl | rfl <;> simp
      have hkept : CmdRecord.Kept .none place := by
        rcases hends with rfl | rfl <;> simp [CmdRecord.Kept]
      rw [← hplace]
      refine h.update ci ((s.records ci).touch.put place) rfl ?_ ?_ ?_ h.nodup
        (by simp [hissuing]) ?_
      · rw [LoopAt.grip_of_none rfl, htouch]
        exact hr.move (by simp [hissuing, CmdRecord.Kept]) hkept hq (by simp [hissuing])
          (by simp [hissuing]) hw
      · intro cj hcj
        rw [LoopAt.grip_other htarget hcj, LoopAt.grip_of_none rfl]
      · intro cj
        by_cases hcj : cj = ci
        · simp [hcj, Sharing.update, h.queue ci, hissuing, CmdRecord.put, hq]
        · simp [hcj, Sharing.update]
      · rintro cb (hreg | hcb) -
        · rcases hreg.of_asyncCommand hcmd with hreg | ⟨hok, rfl⟩
          · exact Or.inl (Or.inl hreg)
          · exact Or.inr ⟨rfl, hplace.trans (if_pos hok)⟩
        · exact Or.inl (Or.inr hcb)
  | @reply ci reply next hl =>
      have htarget : s.loop.target = some (ci, .reply) := by rw [hl]; rfl
      have hr := h.record ci
      rw [LoopAt.grip_self htarget] at hr
      have hheld := hr.place_of_grip.2.1 rfl
      obtain ⟨hdown, hzero⟩ := hr.countDown (Or.inl rfl)
      simp only [if_true] at hdown
      refine h.work htarget (r := ((s.records ci).count (-1)).put .called) rfl hdown ?_ ?_ rfl
        (by simp [hheld, CmdRecord.put]) (by simp [CmdRecord.put]) rfl rfl
      · by_cases hle : (s.records ci).reference - 1 = 0
        · simp only [if_pos (hzero.mpr hle), if_pos hle]
          exact LoopAt.grip_self rfl
        · simp only [if_neg (mt hzero.mp hle), if_neg hle]
          exact LoopAt.grip_self rfl
      · intro cj hcj
        simp only
        split
        · exact LoopAt.grip_other (i := ci) (g := .free) rfl hcj
        · exact LoopAt.grip_other (i := ci) (g := .write) rfl hcj
  | @write ci reply next hl =>
      have htarget : s.loop.target = some (ci, .write) := by rw [hl]; rfl
      have hr := h.record ci
      rw [LoopAt.grip_self htarget] at hr
      exact h.work htarget (r := { (s.records ci).touch with reply := reply }) (k := .write) rfl
        (hr.use (Or.inl ⟨rfl, Or.inl rfl⟩) rfl rfl rfl rfl rfl) (LoopAt.grip_self rfl)
        (fun cj hcj ↦ LoopAt.grip_other (i := ci) (g := .write) rfl hcj) rfl Iff.rfl id rfl rfl
  | @post ci next hl =>
      have htarget : s.loop.target = some (ci, .write) := by rw [hl]; rfl
      have hr := h.record ci
      rw [LoopAt.grip_self htarget] at hr
      have hnone := LoopAt.grip_of_none (LoopAt.target_resume next)
      exact h.work htarget
        (r := { (s.records ci).touch with posts := (s.records ci).posts + 1 }) (k := .none) rfl
        (hr.use (Or.inl ⟨rfl, Or.inr rfl⟩) rfl rfl rfl rfl rfl) (hnone ci) (fun cj _ ↦ hnone cj) rfl
        Iff.rfl id rfl rfl
  | @destroy ci next hl =>
      have htarget : s.loop.target = some (ci, .free) := by rw [hl]; rfl
      have hr := h.record ci
      rw [LoopAt.grip_self htarget] at hr
      exact h.work htarget (r := (s.records ci).touch) (k := .free) rfl
        (hr.use (Or.inr ⟨rfl, rfl⟩) rfl rfl rfl rfl rfl) (LoopAt.grip_self rfl)
        (fun cj hcj ↦ LoopAt.grip_other (i := ci) (g := .free) rfl hcj) rfl Iff.rfl id rfl rfl
  | @free ci next hl =>
      have htarget : s.loop.target = some (ci, .free) := by rw [hl]; rfl
      have hr := h.record ci
      rw [LoopAt.grip_self htarget] at hr
      have hnone := LoopAt.grip_of_none (LoopAt.target_resume next)
      exact h.work htarget (r := (s.records ci).free) (k := .none) rfl hr.freeLoop (hnone ci)
        (fun cj _ ↦ hnone cj) rfl Iff.rfl id rfl rfl
  | @pending cb ac hl hnext =>
      obtain ⟨hreg, hsub⟩ := nextPending_registered hnext
      have hagain := hending hl cb (by simp [hnext])
      exact h.runCallback (t := { s with ac := ac }) (by rw [hl]; rfl) rfl rfl (Or.inl hreg)
        (fun c hc ↦ hc.imp (hsub c) Or.inl) hagain false .ending
  | lose hl _ _ _ => exact h.frame rfl (by rw [hl]; rfl) rfl rfl fun _ hreg _ ↦ hreg
  | leave hl _ _ => exact h.frame rfl (by rw [hl]; rfl) rfl rfl fun _ hreg _ ↦ hreg
  | clear hl hlist =>
      exact h.take (by rw [hl]; rfl) hlist (p := .taken) (g := .drop) rfl rfl rfl
        (by simp [CmdRecord.Kept]) (by simp) (by simp) rfl rfl
  | cleared hl _ => exact h.frame rfl (by rw [hl]; rfl) rfl rfl fun _ hreg _ ↦ hreg
  | @drop ci hl =>
      have htarget : s.loop.target = some (ci, .drop) := by rw [hl]; rfl
      have hr := h.record ci
      rw [LoopAt.grip_self htarget] at hr
      have htaken := hr.place_of_grip.2.2 rfl
      have hdown := (hr.countDown (Or.inr rfl)).1
      simp only [reduceCtorEq, if_false] at hdown
      refine h.work htarget (r := ((s.records ci).count (-1)).put .dropped) rfl hdown ?_ ?_ rfl
        (by simp [htaken, CmdRecord.put]) (by simp [htaken]) rfl rfl
      · by_cases hle : (s.records ci).reference - 1 = 0
        · simp only [if_pos hle]
          exact LoopAt.grip_self rfl
        · simp only [if_neg hle]
          exact LoopAt.grip_of_none rfl ci
      · intro cj hcj
        simp only
        split
        · exact LoopAt.grip_other (i := ci) (g := .free) rfl hcj
        · exact LoopAt.grip_of_none rfl cj
  | unlock hl => exact h.frame rfl (by rw [hl]; rfl) rfl rfl fun _ hreg _ ↦ hreg
  | @scrap ci rest hl hlist =>
      have hloop : s.loop.target = none := by rw [hl]; rfl
      have hr := h.record ci
      rw [LoopAt.grip_of_none hloop] at hr
      have hqueued : (s.records ci).place = .queued := (h.queue ci).mp (by simp [hlist])
      have hleft := hscrapping hl ci (by simp [hlist])
      have hnone := LoopAt.grip_of_none hloop
      refine h.pop hloop hlist (r := (s.records ci).free.put .scrapped) rfl rfl ?_
        (fun cj _ ↦ hnone cj) (by simp [CmdRecord.put]) rfl rfl
      exact (hnone ci).symm ▸ hr.scrap hqueued hleft
  | scrapped hl _ => exact h.frame rfl (by rw [hl]; rfl) rfl rfl fun _ hreg _ ↦ hreg

theorem Sound.idle {s s' : Sharing} (h : s.Sound) (hidle : s.loop = .idle)
    (hrecords : s'.records = s.records) (hlist : s'.cmdList = s.cmdList)
    (hloop : s'.loop.target = none)
    (hcallbacks : ∀ cb, s'.ac.Registered cb ∨ cb = s'.cb → cb.fn ≠ none →
      s.ac.Registered cb ∨ cb = s.cb) : s'.Sound :=
  h.frame hrecords (by rw [hidle]; rfl) hloop hlist hcallbacks

theorem Sound.read {s s' : Sharing} (h : s.Sound) {reply : ReplyTree}
    (howned : s.Owned (.read reply)) (hstep : s.step (.read reply) = some s') : s'.Sound := by
  cases step_cases hstep with
  | @read _ cb ac hidle hpick =>
      obtain ⟨hreg, hsub⟩ := AsyncContext.pickCallback_registered hpick
      have hagain := howned cb (by simp [picked, hpick])
      refine h.runCallback (t := { s with ac := ac, cb := cb }) (by rw [hidle]; rfl) rfl rfl hreg ?_
        hagain true .replies
      rintro c (hc | rfl)
      · exact Or.inl (hsub c hc)
      · exact hreg.imp_right Or.inl
  | @readError _ ac hidle hpick =>
      have hsame : ∀ c, ac.Registered c → s.ac.Registered c := by
        rw [AsyncContext.pickCallback_disconnect hpick]
        exact fun c hc ↦ hc
      exact h.idle hidle rfl rfl rfl fun c hc _ ↦ hc.imp_left (hsame c)

theorem Sound.endCall {s s' : Sharing} (h : s.Sound) (hstep : s.step .endCall = some s') :
    s'.Sound := by
  cases step_cases hstep with
  | endCall hidle =>
      refine h.idle hidle rfl rfl (by rw [hidle]; rfl) ?_
      rintro cb (hreg | rfl) hfn
      · simp only at hreg
        split at hreg
        · rcases hreg with hreg | hreg | hreg
          · exact (List.mem_append.mp hreg).imp Or.inl List.mem_singleton.mp
          · exact Or.inl (Or.inr (Or.inl hreg))
          · exact Or.inl (Or.inr (Or.inr hreg))
        · exact Or.inl hreg
      · exact (hfn rfl).elim

theorem Sound.call {s s' : Sharing} (h : s.Sound) {ci : ℕ} {cmd : List UInt8}
    (hstep : s.step (.call ci cmd) = some s') : s'.Sound := by
  cases step_cases hstep with
  | call habsent =>
      obtain ⟨-, hr⟩ := h.record ci
      rw [habsent] at hr
      obtain ⟨hplace, hgrip, -⟩ := hr
      refine h.caller (i := ci) (r := .create cmd) rfl ⟨rfl, rfl, hgrip, rfl, rfl⟩ ?_ rfl rfl rfl
        rfl
      exact hplace.symm

theorem fresh_sound : fresh.Sound := by
  refine ⟨fun ci ↦ ⟨rfl, rfl, rfl, rfl⟩, ?_, List.nodup_nil, ?_⟩
  · intro ci
    simp [fresh, CmdRecord.absent]
  · rintro cb ((hreg | hreg | ⟨pattern, name, hreg⟩) | rfl) hfn
    · simp [fresh, AsyncContext.redisAsyncInitialize] at hreg
    · simp [fresh, AsyncContext.redisAsyncInitialize] at hreg
    · cases pattern <;>
        simp [fresh, AsyncContext.redisAsyncInitialize, AsyncContext.callbacks] at hreg
    · exact (hfn rfl).elim

theorem Sound.next {s s' : Sharing} (h : s.Sound) {a : Action} (howned : s.Owned a)
    (hstep : s.step a = some s') : s'.Sound := by
  cases step_cases hstep with
  | call _ => exact h.call hstep
  | caller hcaller => exact h.stepCaller howned hcaller
  | context _ => exact ⟨h.record, h.queue, h.nodup, h.callbacks⟩
  | task hidle _ _ => exact h.idle hidle rfl rfl rfl fun _ hreg _ ↦ hreg
  | taskLost _ _ _ => exact h
  | read _ _ => exact h.read howned hstep
  | readError _ _ => exact h.read howned hstep
  | endCall _ => exact h.endCall hstep
  | close hidle _ => exact h.idle hidle rfl rfl rfl fun _ hreg _ ↦ hreg
  | free hidle => exact h.idle hidle rfl rfl rfl fun _ hreg _ ↦ hreg
  | loop hloop => exact h.stepLoop howned hloop

end Sharing

end MuxHiredis
