import MuxHiredis.Async.Context

/-!
# Callbacks, teardown and replies

The functions of `async.c` that run callbacks.  A callback may call the
interface again; what the `n`-th callback run calls is `script n`, for an
arbitrary `script`.
-/

namespace MuxHiredis

/-- A call of the interface: `redisAsyncCommand`, `redisAsyncDisconnect` or
`redisAsyncFree`. -/
inductive ApiCall where
  | command (fn : Option ℕ) (privdata : ℕ) (cmd : List UInt8)
  | disconnect
  | free

/-- The number of callbacks that were run. -/
def Event.isRun : Event → Bool
  | .run _ _ _ => true
  | _ => false

/-- The result of `redisCheckSocketError`. -/
inductive SocketCheck where
  | connected | inProgress | failed
  deriving DecidableEq, Repr

namespace AsyncContext

/-! ## Calls that may come from a callback -/

/-- `redisAsyncFree`, which tears down at once outside of a callback. -/
def freeWith (teardown : AsyncContext → Option AsyncContext) (ac : AsyncContext) :
    Option AsyncContext :=
  let ac := { ac with flags := { ac.flags with freeing := true } }
  if ac.flags.inCallback then some ac else teardown ac

/-- `redisAsyncDisconnect`, which disconnects at once outside of a callback when
no reply is awaited. -/
def disconnectWith (disconnect : AsyncContext → Option AsyncContext) (ac : AsyncContext) :
    Option AsyncContext :=
  let ac := { ac with flags := { ac.flags with disconnecting := true } }
  if ac.flags.inCallback = false ∧ ac.replies = [] then disconnect ac else some ac

/-- A call of the interface, with the two functions that end a connection. -/
def performWith (teardown disconnect : AsyncContext → Option AsyncContext)
    (call : ApiCall) (ac : AsyncContext) : Option AsyncContext :=
  match call with
  | .command fn privdata cmd => (ac.asyncCommand fn privdata cmd).map Prod.snd
  | .disconnect => ac.disconnectWith disconnect
  | .free => ac.freeWith teardown

/-- A call from inside a callback. -/
def performInside (call : ApiCall) (ac : AsyncContext) : Option AsyncContext :=
  performWith some some call ac

section Script

variable (script : ℕ → List ApiCall)

/-- `__redisRunCallback`. -/
def runCallback (ac : AsyncContext) (cb : RedisCallback) (reply : Option ReplyTree) :
    Option AsyncContext :=
  match cb.fn with
  | none => some ac
  | some fn =>
      let inside := { ac with flags := { ac.flags with inCallback := true } }.record
        (.run fn cb.privdata reply)
      ((script (ac.trace.countP Event.isRun)).foldlM (fun ac call ↦ performInside call ac)
        inside).map fun ac ↦ { ac with flags := { ac.flags with inCallback := false } }

/-- `while (__redisShiftCallback(list,&cb) == REDIS_OK) __redisRunCallback(ac,&cb,NULL);` -/
def drainFor (shift : AsyncContext → Option (RedisCallback × AsyncContext)) :
    ℕ → AsyncContext → Option AsyncContext
  | 0, ac => some ac
  | fuel + 1, ac =>
      match shift ac with
      | none => some ac
      | some (cb, ac) => (ac.runCallback script cb none).bind (drainFor shift fuel)

/-- Run the callbacks of a table with a `NULL` reply. -/
def runAll (cbs : List RedisCallback) (ac : AsyncContext) : Option AsyncContext :=
  cbs.foldlM (fun ac cb ↦ ac.runCallback script cb none) ac

/-- The call of the disconnect callback in `__redisAsyncFree`. -/
def notifyDisconnect (ac : AsyncContext) : AsyncContext :=
  if ac.onDisconnect ∧ ac.flags.connected then
    ac.record (.onDisconnect (if ac.flags.freeing ∨ ac.err = none then .ok else .err))
  else ac

/-- Run what is pending of the subscriptions with a `NULL` reply: the callbacks
of invalid commands, of the channels and of the patterns. -/
def endSubscriptions (ac : AsyncContext) : Option AsyncContext :=
  (drainFor script shiftInvalid ac.invalid.length ac).bind fun ac ↦
    (runAll script (ac.channels.entries.map (·.2)) ac).bind fun ac ↦
      runAll script (ac.patterns.entries.map (·.2)) ac

/-- `__redisAsyncFree`.  The callbacks it runs cannot issue commands, which
bounds the loops. -/
def asyncFree (ac : AsyncContext) : Option AsyncContext :=
  (drainFor script shiftReplies ac.replies.length (ac.record .teardown)).bind fun ac ↦
    (ac.endSubscriptions script).map fun ac ↦ { ac.notifyDisconnect with freed := true }

/-- `__redisAsyncDisconnect`. -/
def asyncDisconnect (ac : AsyncContext) : Option AsyncContext :=
  let ac := { ac with err := ac.cErr }
  if ac.err = none then
    -- For clean disconnects, there should be no pending callbacks.
    match ac.replies with
    | [] => ac.asyncFree script
    | _ :: _ => none
  else { ac with flags := { ac.flags with disconnecting := true } }.asyncFree script

def redisAsyncFree (ac : AsyncContext) : Option AsyncContext :=
  ac.freeWith (asyncFree script)

def redisAsyncDisconnect (ac : AsyncContext) : Option AsyncContext :=
  ac.disconnectWith (asyncDisconnect script)

/-- A call from outside of any callback. -/
def perform (call : ApiCall) (ac : AsyncContext) : Option AsyncContext :=
  performWith (asyncFree script) (asyncDisconnect script) call ac

end Script

/-! ## Finding the callback of a reply -/

/-- The table of a subscription. -/
def callbacks (ac : AsyncContext) (pattern : Bool) : CallbackDict :=
  if pattern then ac.patterns else ac.channels

/-- `pvariant` of the kind of a message. -/
def isPattern (stype : List UInt8) : Bool := decide (stype.head?.map tolower = some 112)

/-- Whether a message confirms an unsubscription. -/
def isUnsubscribe (stype : List UInt8) : Bool :=
  equalNoCase ("unsubscribe".toList.map (·.toNat.toUInt8))
    (if isPattern stype then stype.drop 1 else stype)

/-- `dictDelete`, and the return to non-subscribe mode with the last
unsubscription. -/
def unsubscribed (ac : AsyncContext) (pattern : Bool) (name : List UInt8)
    (remaining : ℤ) : AsyncContext :=
  let ac :=
    if pattern then { ac with patterns := ac.patterns.erase name }
    else { ac with channels := ac.channels.erase name }
  if remaining = 0 then { ac with flags := { ac.flags with subscribed := false } } else ac

/-- `__redisGetSubscribeCallback`.  The record `dstcb` stays what it was when
nothing is found. -/
def getSubscribeCallback (ac : AsyncContext) (reply : ReplyTree) (dstcb : RedisCallback) :
    Option (RedisCallback × AsyncContext) :=
  match reply with
  | .array elements =>
      match elements with
      | .string stype :: .string sname :: rest =>
          match (ac.callbacks (isPattern stype)).lookup sname with
          | none => some (dstcb, ac)
          | some cb =>
              if isUnsubscribe stype then
                match rest with
                | .integer remaining :: _ =>
                    some (cb, ac.unsubscribed (isPattern stype) sname remaining)
                | _ => none
              else some (cb, ac)
      | _ => none
  | _ => some (ac.shiftInvalid.getD (dstcb, ac))

/-- Where the loop of `redisProcessCallbacks` stands once it has looked for the
callback of a reply. -/
inductive Picked where
  | run (cb : RedisCallback) (ac : AsyncContext)
  | disconnect (ac : AsyncContext)

/-- Find the callback of a reply.  There is no result when an assertion
fails. -/
def pickCallback (ac : AsyncContext) (cb : RedisCallback) (reply : ReplyTree) : Option Picked :=
  match ac.shiftReplies with
  | some (cb, ac) => some (.run cb ac)
  | none =>
      match reply with
      | .error _ => some (.disconnect { ac with cErr := some .other })
      | _ =>
          if ac.flags.subscribed then
            (ac.getSubscribeCallback reply cb).map fun p ↦ .run p.1 p.2
          else if ac.flags.monitoring then some (.run cb ac)
          else none

/-! ## Replies -/

/-- Whether `redisProcessCallbacks` goes on after a reply. -/
inductive Processed where
  | next (cb : RedisCallback) (ac : AsyncContext)
  | done (ac : AsyncContext)

section Script

variable (script : ℕ → List ApiCall)

/-- One turn of the loop of `redisProcessCallbacks`; `cb` is its local
variable. -/
def processReply (cb : RedisCallback) (reply : ReplyTree) (ac : AsyncContext) :
    Option Processed :=
  match (ac.record (.reply reply)).pickCallback cb reply with
  | none => none
  | some (.disconnect ac) => (ac.asyncDisconnect script).map .done
  | some (.run cb ac) =>
      if cb.fn = none then some (.next cb ac)
      else
        (ac.runCallback script cb (some reply)).bind fun ac ↦
          -- Proceed with free'ing when redisAsyncFree() was called.
          if ac.flags.freeing then (ac.asyncFree script).map .done else some (.next cb ac)

/-- The end of the loop: no more replies, or an error reading one. -/
def endOfReplies (failed : Option RedisErr) (cb : RedisCallback) (ac : AsyncContext) :
    Option AsyncContext :=
  match failed with
  | some e => { ac with cErr := some e }.asyncDisconnect script
  | none =>
      if ac.flags.disconnecting ∧ ac.obuf = [] ∧ ac.replies = [] then ac.asyncDisconnect script
      else if ac.flags.monitoring then some { ac with replies := ac.replies ++ [cb] }
      else some ac

def processReplies : List ReplyTree → Option RedisErr → RedisCallback → AsyncContext →
    Option AsyncContext
  | [], failed, cb, ac => ac.endOfReplies script failed cb
  | reply :: rest, failed, cb, ac =>
      (ac.processReply script cb reply).bind fun
        | .next cb ac => processReplies rest failed cb ac
        | .done ac => some ac

/-- `redisProcessCallbacks`, with the replies that the reader holds and the error
that follows them, if any. -/
def redisProcessCallbacks (replies : List ReplyTree) (failed : Option RedisErr)
    (ac : AsyncContext) : Option AsyncContext :=
  ac.processReplies script replies failed .null

/-! ## Socket events -/

/-- The call of the connect callback, which may issue `commands`. -/
def notifyConnect (status : Status) (commands : List (Option ℕ × ℕ × List UInt8))
    (ac : AsyncContext) : Option AsyncContext :=
  if ac.onConnect then
    commands.foldlM (fun ac c ↦ (ac.asyncCommand c.1 c.2.1 c.2.2).map Prod.snd)
      (ac.record (.onConnect status))
  else some ac

/-- `__redisAsyncHandleConnect`. -/
def asyncHandleConnect (check : SocketCheck) (commands : List (Option ℕ × ℕ × List UInt8))
    (ac : AsyncContext) : Option (Status × AsyncContext) :=
  match check with
  | .inProgress => some (.ok, { ac with cErr := some .io })
  | .failed =>
      (({ ac with cErr := some .io }.notifyConnect .err commands).bind
        (asyncDisconnect script)).map (.err, ·)
  | .connected =>
      ({ ac with flags := { ac.flags with connected := true } }.notifyConnect .ok commands).map
        (.ok, ·)

/-- The common head of the two handlers: go on with `handle` once the socket is
connected. -/
def whenConnected (check : SocketCheck) (commands : List (Option ℕ × ℕ × List UInt8))
    (handle : AsyncContext → Option AsyncContext) (ac : AsyncContext) : Option AsyncContext :=
  if ac.flags.connected then handle ac
  else
    (ac.asyncHandleConnect script check commands).bind fun
      | (.err, ac) => some ac
      | (.ok, ac) => if ac.flags.connected then handle ac else some ac

/-- Read from a connected socket: `redisBufferRead` returns at once when the
context has seen an error; otherwise it fails, or the reader makes replies of
what was read and then perhaps an error. -/
def readConnected (data : Except RedisErr (List ReplyTree × Option RedisErr))
    (ac : AsyncContext) : Option AsyncContext :=
  if ac.cErr ≠ none then ac.asyncDisconnect script
  else
    match data with
    | .error e => { ac with cErr := some e }.asyncDisconnect script
    | .ok (replies, failed) => ac.redisProcessCallbacks script replies failed

/-- Write to a connected socket, which takes `written` bytes unless it fails. -/
def writeConnected (written : Except RedisErr ℕ) (ac : AsyncContext) : Option AsyncContext :=
  if ac.cErr ≠ none then ac.asyncDisconnect script
  else
    match written with
    | .error e => { ac with cErr := some e }.asyncDisconnect script
    | .ok n => some { ac with obuf := ac.obuf.drop n }

def redisAsyncHandleRead (check : SocketCheck) (commands : List (Option ℕ × ℕ × List UInt8))
    (data : Except RedisErr (List ReplyTree × Option RedisErr)) (ac : AsyncContext) :
    Option AsyncContext :=
  ac.whenConnected script check commands (readConnected script data)

def redisAsyncHandleWrite (check : SocketCheck) (commands : List (Option ℕ × ℕ × List UInt8))
    (written : Except RedisErr ℕ) (ac : AsyncContext) : Option AsyncContext :=
  ac.whenConnected script check commands (writeConnected script written)

end Script

end AsyncContext

end MuxHiredis
