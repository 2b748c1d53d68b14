import MuxHiredis.Lib.Descriptors
import MuxHiredis.Lib.Machine
import MuxHiredis.Mux.Establish

/-!
# The descriptor of a context

The functions of `net.c` and `hiredis.c` that open, use and close `c->fd`, with
what they do to it written down.  `Establish` has the same functions without the
history; the two are shown to agree.
-/

namespace MuxHiredis

namespace Connect

/-- A context with the history of its descriptors. -/
structure FdContext where
  c : SocketContext
  log : List FdOp

namespace FdContext

/-- A call on `c->fd` that leaves it open. -/
def use (x : FdContext) : FdContext := { x with log := .used x.c.fd :: x.log }

def fail (type : RedisErr) (x : FdContext) : FdContext := { x with c := x.c.fail type }

/-- `redisContextCloseFd`. -/
def closeFd (x : FdContext) : FdContext :=
  if 0 ≤ x.c.fd then ⟨Connect.redisContextCloseFd x.c, .closed x.c.fd :: x.log⟩ else x

/-- `c->fd = s`, for a new socket. -/
def openFd (x : FdContext) (s : ℕ) : FdContext :=
  ⟨{ x.c with fd := s }, .opened s :: x.log⟩

/-- `redisSetBlocking` and `redisSetTcpNoDelay`. -/
def setOption (x : FdContext) (done : Bool) : Status × FdContext :=
  if done then (.ok, x.use) else (.err, (x.use.fail .io).closeFd)

def checkSocketError (x : FdContext) (error : Bool) : Status × FdContext :=
  if error then (.err, x.use.fail .io) else (.ok, x.use)

/-- `redisContextWaitReady`. -/
def waitReady (a : Calls) (x : FdContext) : Status × FdContext :=
  if a.connect = .inProgress then
    match a.poll with
    | .failed | .timedOut => (.err, (x.use.fail .io).closeFd)
    | .ready => x.use.checkSocketError a.socketError
  else (.err, (x.fail .io).closeFd)

def bindSource (a : Calls) (x : FdContext) : Status × FdContext :=
  match a.sourceInfo with
  | none => (.err, x.fail .other)
  | some binds =>
      if x.c.reuseaddr && !a.reuse then (.err, x.use)
      else if binds.any id then (.ok, x.use)
      else (.err, x.use.fail .other)

/-- How a pass ends. -/
inductive Ending where
  | next
  | again
  | error
  | done (s : ℕ)
  deriving DecidableEq, Repr

def afterConnect (a : Calls) (x : FdContext) (s : ℕ) : Ending × FdContext :=
  match if x.c.blocking then x.setOption a.block else (.ok, x) with
  | (.err, x) => (.error, x)
  | (.ok, x) =>
      match x.setOption a.nodelay with
      | (.err, x) => (.error, x)
      | (.ok, x) => (.done s, { x with c := { x.c with connected := true } })

/-- From the call of `connect` on. -/
def connectSocket (a : Calls) (x : FdContext) (s : ℕ) : Ending × FdContext :=
  if a.connect = .ok then x.use.afterConnect a s
  else if a.connect = .hostUnreach then (.next, x.use.closeFd)
  else if a.connect = .inProgress ∧ ¬x.c.blocking then x.use.afterConnect a s
  else if a.connect = .addrNotAvail ∧ x.c.reuseaddr then (.again, x.use)
  else
    match x.use.waitReady a with
    | (.err, x) => (.error, x)
    | (.ok, x) => x.afterConnect a s

def pass (a : Calls) (x : FdContext) (source : Bool) : Ending × FdContext :=
  match a.socket with
  | none => (.next, x)
  | some s =>
      match (x.openFd s).setOption a.nonblock with
      | (.err, x) => (.error, x)
      | (.ok, x) =>
          match if source then x.bindSource a else (.ok, x) with
          | (.err, x) => (.error, x)
          | (.ok, x) => x.connectSocket a s

/-- How the passes for one address end. -/
inductive Outcome where
  | next (retries k : ℕ)
  | error
  | done (s : ℕ)
  deriving DecidableEq, Repr

def tryAddress (calls : ℕ → Calls) (source : Bool) : ℕ → ℕ → FdContext → Outcome × FdContext
  | 0, _, x => (.error, x)
  | retries + 1, k, x =>
      match x.pass (calls k) source with
      | (.next, x) => (.next (retries + 1) (k + 1), x)
      | (.error, x) => (.error, x)
      | (.done s, x) => (.done s, x)
      | (.again, x) =>
          if retries = 0 then (.error, x) else tryAddress calls source retries (k + 1) x.closeFd

def tryAddresses (calls : ℕ → Calls) (source : Bool) :
    ℕ → ℕ → ℕ → FdContext → Status × Option ℕ × FdContext
  | 0, _, _, x => (.err, none, x.fail .other)
  | addresses + 1, retries, k, x =>
      match tryAddress calls source retries k x with
      | (.next retries k, x) => tryAddresses calls source addresses retries k x
      | (.error, x) => (.err, none, x)
      | (.done s, x) => (.ok, some s, x)

/-- `_redisContextConnectTcp`; `timeout` says whether the timeout is none or a
valid one. -/
def connectTcp (net : Network) (timeout source : Bool) (x : FdContext) :
    Status × Option ℕ × FdContext :=
  if timeout then
    match net.addresses with
    | none => (.err, none, x.fail .other)
    | some addresses => tryAddresses net.calls source addresses connectRetries 0 x
  else (.err, none, x.fail .io)

/-- `redisContextConnectUnix`, with whether it got as far as setting
`connection_type`. -/
def connectUnix (a : Calls) (timeout : Bool) (x : FdContext) : Status × Bool × FdContext :=
  match a.socket with
  | none => (.err, false, x.fail .io)
  | some s =>
      match (x.openFd s).setOption a.nonblock with
      | (.err, x) => (.err, false, x)
      | (.ok, x) =>
          if timeout then
            let connected : Status × FdContext :=
              if a.connect = .ok ∨ a.connect = .inProgress ∧ ¬x.c.blocking then (.ok, x.use)
              else x.use.waitReady a
            match connected with
            | (.err, x) => (.err, true, x)
            | (.ok, x) =>
                match if x.c.blocking then x.setOption a.block else (.ok, x) with
                | (.err, x) => (.err, true, x)
                | (.ok, x) => (.ok, true, { x with c := { x.c with connected := true } })
          else (.err, true, x)

end FdContext

/-! ## The calls on a context -/

/-- `enum redisConnectionType`, whose first value a new context has. -/
inductive ConnectionType where
  | tcp | unix
  deriving DecidableEq, Repr

/-- A context from before it is made until after it is freed. -/
inductive Phase where
  | absent | live | freed
  deriving DecidableEq, Repr

structure NetContext extends FdContext where
  phase : Phase
  type : ConnectionType
  timeout : Bool
  source : Bool

/-- The calls that make, reconnect and free a context.  A reconnect comes with what
the system calls give for either kind of address. -/
inductive NetCall where
  | connectTcp (blocking reuseaddr timeout source : Bool) (net : Network)
  | connectUnix (blocking timeout : Bool) (calls : Calls)
  | connectFd (fd : ℕ)
  | reconnect (net : Network) (calls : Calls)
  | free
  | freeKeepFd

namespace NetContext

def absent : NetContext where
  c := ⟨0, none, false, false, false⟩
  log := []
  phase := .absent
  type := .tcp
  timeout := true
  source := false

/-- `redisContextInit`, with the flags that are set next. -/
def init (blocking reuseaddr : Bool) (s : NetContext) : NetContext :=
  { s with
    c := { s.c with blocking := blocking, reuseaddr := reuseaddr }
    phase := .live }

/-- `redisContextConnectBindTcp`; the context keeps the timeout, and the source address
if the timeout is valid. -/
def connectTcp (net : Network) (timeout source : Bool) (s : NetContext) : NetContext :=
  { s with
    toFdContext := (s.toFdContext.connectTcp net timeout source).2.2
    type := .tcp
    timeout := timeout
    source := if timeout then source else s.source }

/-- The context keeps the timeout once it has a socket that does not block. -/
def connectUnix (calls : Calls) (timeout : Bool) (s : NetContext) : NetContext :=
  let (_, named, x) := s.toFdContext.connectUnix calls timeout
  { s with
    toFdContext := x
    type := if named then .unix else s.type
    timeout := if named then timeout else s.timeout }

/-- The first half of `redisReconnect`, which does not reset `c->fd`. -/
def closeOld (s : NetContext) : NetContext :=
  { s with
    c := { s.c with err := none }
    log := if 0 < s.c.fd then .closed s.c.fd :: s.log else s.log }

def connectAgain (net : Network) (calls : Calls) (s : NetContext) : NetContext :=
  match s.type with
  | .tcp => s.connectTcp net s.timeout s.source
  | .unix => s.connectUnix calls s.timeout

def redisReconnect (net : Network) (calls : Calls) (s : NetContext) : NetContext :=
  s.closeOld.connectAgain net calls

def redisFree (s : NetContext) : NetContext :=
  { s with
    log := if 0 < s.c.fd then .closed s.c.fd :: s.log else s.log
    phase := .freed }

/-- The descriptor goes to the caller, if there is one. -/
def keepFd (s : NetContext) : NetContext :=
  { s with
    c := { s.c with fd := -1 }
    log := if 0 ≤ s.c.fd then .used s.c.fd :: s.log else s.log }

def redisFreeKeepFd (s : NetContext) : ℤ × NetContext := (s.c.fd, s.keepFd.redisFree)

def step (s : NetContext) (call : NetCall) : Option NetContext :=
  match s.phase, call with
  | .absent, .connectTcp blocking reuseaddr timeout source net =>
      some ((s.init blocking reuseaddr).connectTcp net timeout source)
  | .absent, .connectUnix blocking timeout calls =>
      some ((s.init blocking false).connectUnix calls timeout)
  | .absent, .connectFd fd =>
      some { s with
        c := { s.c with fd := fd, blocking := true, connected := true }
        log := .opened fd :: s.log
        phase := .live }
  | .live, .reconnect net calls => some (s.redisReconnect net calls)
  | .live, .free => some s.redisFree
  | .live, .freeKeepFd => some s.redisFreeKeepFd.2
  | _, _ => none

def machine : Machine NetContext NetCall := ⟨(· = absent), step⟩

end NetContext

/-! ## The history leaves the context as it is -/

namespace FdContext

variable (a : Calls) (x : FdContext)

/-- The ending without the history. -/
def Ending.pass (ending : Ending) (c : SocketContext) : Pass :=
  match ending with
  | .next => .next c
  | .again => .again c
  | .error => .error c
  | .done s => .done s c

def Outcome.tried (outcome : Outcome) (c : SocketContext) : Tried :=
  match outcome with
  | .next retries k => .next retries k c
  | .error => .error c
  | .done s => .done s c

@[simp] theorem c_use : x.use.c = x.c := rfl

@[simp] theorem c_fail (type : RedisErr) : (x.fail type).c = x.c.fail type := rfl

@[simp] theorem c_closeFd : x.closeFd.c = redisContextCloseFd x.c := by
  unfold closeFd redisContextCloseFd
  split <;> rfl

theorem c_setOption (done : Bool) :
    ((x.setOption done).1, (x.setOption done).2.c) = redisSetBlocking x.c done := by
  cases done <;> simp [setOption, redisSetBlocking]

theorem c_waitReady :
    ((x.waitReady a).1, (x.waitReady a).2.c) = redisContextWaitReady a x.c := by
  unfold waitReady redisContextWaitReady
  split
  · cases a.poll with
    | failed | timedOut => simp
    | ready => cases a.socketError <;> simp [checkSocketError, redisCheckSocketError]
  · simp

theorem c_bindSource :
    ((x.bindSource a).1, (x.bindSource a).2.c) = Connect.bindSource a x.c := by
  unfold bindSource Connect.bindSource
  cases a.sourceInfo with
  | none => rfl
  | some binds =>
      simp only
      split
      · rfl
      · split <;> rfl

theorem c_afterConnect (s : ℕ) :
    (x.afterConnect a s).1.pass (x.afterConnect a s).2.c = Connect.afterConnect a x.c s := by
  have hblock : ((if x.c.blocking then x.setOption a.block else (.ok, x)).1,
      (if x.c.blocking then x.setOption a.block else (.ok, x)).2.c) =
        if x.c.blocking then redisSetBlocking x.c a.block else (.ok, x.c) := by
    split
    · exact c_setOption x a.block
    · rfl
  unfold afterConnect Connect.afterConnect
  rw [← hblock]
  rcases (if x.c.blocking then x.setOption a.block else (.ok, x)) with ⟨_ | _, y⟩
  · have hdelay := c_setOption y a.nodelay
    simp only [redisSetTcpNoDelay, redisSetBlocking] at hdelay ⊢
    rw [← hdelay]
    rcases y.setOption a.nodelay with ⟨_ | _, z⟩ <;> rfl
  · rfl

theorem c_connectSocket (s : ℕ) :
    (x.connectSocket a s).1.pass (x.connectSocket a s).2.c = Connect.connectSocket a x.c s := by
  unfold connectSocket Connect.connectSocket
  split
  · exact c_afterConnect a x.use s
  · split
    · simp [Ending.pass]
    · split
      · exact c_afterConnect a x.use s
      · split
        · rfl
        · have hwait := c_waitReady a x.use
          rw [c_use] at hwait
          rw [← hwait]
          rcases x.use.waitReady a with ⟨_ | _, y⟩
          · exact c_afterConnect a y s
          · rfl

theorem c_pass (source : Bool) :
    (x.pass a source).1.pass (x.pass a source).2.c = Connect.pass a x.c source := by
  unfold pass Connect.pass
  cases a.socket with
  | none => rfl
  | some s =>
      have hset := c_setOption (x.openFd s) a.nonblock
      simp only [openFd] at hset ⊢
      rw [← hset]
      rcases FdContext.setOption _ a.nonblock with ⟨_ | _, y⟩
      · have hbind : ((if source then y.bindSource a else (.ok, y)).1,
            (if source then y.bindSource a else (.ok, y)).2.c) =
              if source then Connect.bindSource a y.c else (.ok, y.c) := by
          cases source
          · rfl
          · exact c_bindSource a y
        simp only
        rw [← hbind]
        rcases (if source then y.bindSource a else (.ok, y)) with ⟨_ | _, z⟩
        · exact c_connectSocket a z s
        · rfl
      · rfl

theorem c_tryAddress (calls : ℕ → Calls) (source : Bool) (retries k : ℕ) :
    (x.tryAddress calls source retries k).1.tried (x.tryAddress calls source retries k).2.c =
      Connect.tryAddress calls source retries k x.c := by
  induction retries generalizing k x with
  | zero => rfl
  | succ retries ih =>
      have hpass := c_pass (calls k) x source
      unfold tryAddress Connect.tryAddress
      rw [← hpass]
      rcases x.pass (calls k) source with ⟨_ | _ | _ | _, y⟩
      · rfl
      · simp only [Ending.pass]
        split
        · rfl
        · rw [ih, c_closeFd]
      · rfl
      · rfl

/-- Without the history, the addresses are tried as in `Establish`. -/
theorem c_tryAddresses (calls : ℕ → Calls) (source : Bool) (addresses retries k : ℕ) :
    ((x.tryAddresses calls source addresses retries k).1,
        (x.tryAddresses calls source addresses retries k).2.1,
        (x.tryAddresses calls source addresses retries k).2.2.c) =
      Connect.tryAddresses calls source addresses retries k x.c := by
  induction addresses generalizing retries k x with
  | zero => rfl
  | succ addresses ih =>
      have htry := c_tryAddress x calls source retries k
      unfold tryAddresses Connect.tryAddresses
      rw [← htry]
      rcases x.tryAddress calls source retries k with ⟨_ | _ | _, y⟩
      · exact ih y _ _
      · rfl
      · rfl

theorem c_connectTcp (net : Network) (source : Bool) :
    ((x.connectTcp net true source).1, (x.connectTcp net true source).2.1,
        (x.connectTcp net true source).2.2.c) = redisContextConnectBindTcp net x.c source := by
  unfold connectTcp redisContextConnectBindTcp
  rw [if_pos rfl]
  cases net.addresses with
  | none => rfl
  | some addresses => exact c_tryAddresses x net.calls source addresses connectRetries 0

/-! ## A new socket is looked after -/

/-- The descriptor in the context is open, if there is one. -/
structure Settled (x : FdContext) : Prop where
  sound : FdOp.Sound x.log
  held : 0 ≤ x.c.fd → FdOp.Open x.c.fd x.log

/-- And there is one, if the status is `REDIS_OK`. -/
structure Left (p : Status × FdContext) : Prop where
  settled : p.2.Settled
  held : p.1 = .ok → 0 ≤ p.2.c.fd

variable {a x}

theorem Settled.use (h : x.Settled) (hfd : 0 ≤ x.c.fd) : x.use.Settled :=
  ⟨⟨(h.held hfd).not_stale, h.sound⟩, h.held⟩

theorem Settled.fail (h : x.Settled) (type : RedisErr) : (x.fail type).Settled := ⟨h.sound, h.held⟩

theorem Settled.closeFd (h : x.Settled) : x.closeFd.Settled := by
  unfold FdContext.closeFd
  split
  · rename_i hfd
    refine ⟨⟨h.held hfd, h.sound⟩, fun hneg ↦ ?_⟩
    simp [redisContextCloseFd, if_pos hfd] at hneg
  · exact h

theorem settled_openFd (h : FdOp.Sound x.log) (s : ℕ) : (x.openFd s).Settled :=
  ⟨h, fun _ ↦ Or.inl rfl⟩

theorem Settled.setOption (h : x.Settled) (hfd : 0 ≤ x.c.fd) (done : Bool) :
    Left (x.setOption done) := by
  cases done with
  | false => exact ⟨((h.use hfd).fail .io).closeFd, by simp [FdContext.setOption]⟩
  | true => exact ⟨h.use hfd, fun _ ↦ hfd⟩

theorem Settled.waitReady (h : x.Settled) (hfd : 0 ≤ x.c.fd) (a : Calls) :
    Left (x.waitReady a) := by
  unfold FdContext.waitReady
  split
  · cases a.poll with
    | failed | timedOut => exact ⟨((h.use hfd).fail .io).closeFd, by simp⟩
    | ready =>
        cases a.socketError with
        | false => exact ⟨(h.use hfd).use hfd, fun _ ↦ hfd⟩
        | true => exact ⟨((h.use hfd).use hfd).fail .io, by simp [FdContext.checkSocketError]⟩
  · exact ⟨(h.fail .io).closeFd, by simp⟩

theorem Settled.bindSource (h : x.Settled) (hfd : 0 ≤ x.c.fd) (a : Calls) :
    Left (x.bindSource a) := by
  unfold FdContext.bindSource
  split
  · exact ⟨h.fail .other, by simp⟩
  · split
    · exact ⟨h.use hfd, by simp⟩
    · split
      · exact ⟨h.use hfd, fun _ ↦ hfd⟩
      · exact ⟨(h.use hfd).fail .other, by simp⟩

/-- A step that may be left out. -/
theorem Left.ite {c : Prop} [Decidable c] (h : x.Settled) (hfd : 0 ≤ x.c.fd)
    {p : Status × FdContext} (hp : Left p) : Left (if c then p else (.ok, x)) := by
  split
  · exact hp
  · exact ⟨h, fun _ ↦ hfd⟩

theorem Settled.afterConnect (h : x.Settled) (hfd : 0 ≤ x.c.fd) (a : Calls) (s : ℕ) :
    (x.afterConnect a s).2.Settled := by
  have hblock : Left (if x.c.blocking then x.setOption a.block else (.ok, x)) :=
    .ite h hfd (h.setOption hfd a.block)
  unfold FdContext.afterConnect
  generalize (if x.c.blocking then x.setOption a.block else (.ok, x)) = p at hblock ⊢
  obtain ⟨_ | _, y⟩ := p
  · have hdelay := hblock.settled.setOption (hblock.held rfl) a.nodelay
    simp only
    generalize y.setOption a.nodelay = p at hdelay ⊢
    obtain ⟨_ | _, z⟩ := p
    · exact ⟨hdelay.settled.sound, hdelay.settled.held⟩
    · exact hdelay.settled
  · exact hblock.settled

theorem Settled.connectSocket (h : x.Settled) (hfd : 0 ≤ x.c.fd) (a : Calls) (s : ℕ) :
    (x.connectSocket a s).2.Settled := by
  have huse := h.use hfd
  unfold FdContext.connectSocket
  split
  · exact huse.afterConnect hfd a s
  · split
    · exact huse.closeFd
    · split
      · exact huse.afterConnect hfd a s
      · split
        · exact huse
        · have hwait := huse.waitReady hfd a
          generalize x.use.waitReady a = p at hwait ⊢
          obtain ⟨_ | _, y⟩ := p
          · exact hwait.settled.afterConnect (hwait.held rfl) a s
          · exact hwait.settled

/-- Once a socket was made, whatever follows looks after it. -/
theorem settled_pass (h : FdOp.Sound x.log) {s : ℕ} (hs : a.socket = some s) (source : Bool) :
    (x.pass a source).2.Settled := by
  have hset := (settled_openFd h s).setOption (x := x.openFd s) (by simp [openFd]) a.nonblock
  unfold pass
  rw [hs]
  simp only
  generalize (x.openFd s).setOption a.nonblock = p at hset ⊢
  obtain ⟨_ | _, y⟩ := p
  · have hbind : Left (if source then y.bindSource a else (.ok, y)) :=
      .ite hset.settled (hset.held rfl) (hset.settled.bindSource (hset.held rfl) a)
    simp only
    generalize (if source then y.bindSource a else (.ok, y)) = p at hbind ⊢
    obtain ⟨_ | _, z⟩ := p
    · exact hbind.settled.connectSocket (hbind.held rfl) a s
    · exact hbind.settled
  · exact hset.settled

theorem Settled.pass (h : x.Settled) (a : Calls) (source : Bool) :
    (x.pass a source).2.Settled := by
  cases hs : a.socket with
  | none =>
      unfold FdContext.pass
      rw [hs]
      exact h
  | some s => exact settled_pass h.sound hs source

theorem Settled.tryAddress (h : x.Settled) (calls : ℕ → Calls) (source : Bool) (retries k : ℕ) :
    (x.tryAddress calls source retries k).2.Settled := by
  induction retries generalizing k x with
  | zero => exact h
  | succ retries ih =>
      have hpass := h.pass (calls k) source
      unfold FdContext.tryAddress
      generalize x.pass (calls k) source = p at hpass ⊢
      obtain ⟨_ | _ | _ | _, y⟩ := p
      · exact hpass
      · simp only
        split
        · exact hpass
        · exact ih hpass.closeFd (k + 1)
      · exact hpass
      · exact hpass

theorem Settled.tryAddresses (h : x.Settled) (calls : ℕ → Calls) (source : Bool)
    (addresses retries k : ℕ) :
    (x.tryAddresses calls source addresses retries k).2.2.Settled := by
  induction addresses generalizing retries k x with
  | zero => exact h.fail .other
  | succ addresses ih =>
      have htry := h.tryAddress calls source retries k
      unfold FdContext.tryAddresses
      generalize x.tryAddress calls source retries k = p at htry ⊢
      obtain ⟨_ | _ | _, y⟩ := p
      · exact ih htry _ _
      · exact htry
      · exact htry

theorem settled_tryAddress (h : FdOp.Sound x.log) {calls : ℕ → Calls} (source : Bool)
    {retries k s : ℕ} (hs : (calls k).socket = some s) :
    (x.tryAddress calls source (retries + 1) k).2.Settled := by
  have hpass := settled_pass h hs source
  unfold tryAddress
  generalize x.pass (calls k) source = p at hpass ⊢
  obtain ⟨_ | _ | _ | _, y⟩ := p
  · exact hpass
  · simp only
    split
    · exact hpass
    · exact hpass.closeFd.tryAddress calls source retries (k + 1)
  · exact hpass
  · exact hpass

/-- An address without a socket is passed over. -/
theorem tryAddress_of_none {calls : ℕ → Calls} (source : Bool) {retries k : ℕ}
    (hs : (calls k).socket = none) :
    x.tryAddress calls source (retries + 1) k = (.next (retries + 1) (k + 1), x) := by
  unfold tryAddress pass
  rw [hs]

theorem settled_tryAddresses (h : FdOp.Sound x.log) {calls : ℕ → Calls} (source : Bool)
    {addresses retries k : ℕ} (hs : ∃ i < addresses, (calls (k + i)).socket ≠ none) :
    (x.tryAddresses calls source addresses (retries + 1) k).2.2.Settled := by
  induction addresses generalizing k with
  | zero => simp at hs
  | succ addresses ih =>
      cases hk : (calls k).socket with
      | none =>
          unfold tryAddresses
          rw [tryAddress_of_none source hk]
          refine ih ?_
          obtain ⟨i, hi, hsome⟩ := hs
          cases i with
          | zero => exact absurd hk hsome
          | succ i => exact ⟨i, by omega, by rwa [show k + 1 + i = k + (i + 1) by omega]⟩
      | some s =>
          have htry : (x.tryAddress calls source (retries + 1) k).2.Settled :=
            settled_tryAddress h source hk
          unfold tryAddresses
          generalize x.tryAddress calls source (retries + 1) k = p at htry ⊢
          obtain ⟨_ | _ | _, y⟩ := p
          · exact htry.tryAddresses calls source addresses _ _
          · exact htry
          · exact htry

/-- The descriptor is the one it was, and nothing was done with it. -/
structure Untouched (x x' : FdContext) : Prop where
  fd : x'.c.fd = x.c.fd
  log : x'.log = x.log

theorem untouched_tryAddresses {calls : ℕ → Calls} (source : Bool) {addresses retries k : ℕ}
    (hs : ∀ i < addresses, (calls (k + i)).socket = none) :
    x.Untouched (x.tryAddresses calls source addresses (retries + 1) k).2.2 := by
  induction addresses generalizing k with
  | zero => exact ⟨rfl, rfl⟩
  | succ addresses ih =>
      have hk : (calls k).socket = none := hs 0 (by omega)
      unfold tryAddresses
      rw [tryAddress_of_none source hk]
      exact ih fun i hi ↦ by
        rw [show k + 1 + i = k + (i + 1) by omega]
        exact hs (i + 1) (by omega)

theorem settled_connectUnix (h : FdOp.Sound x.log) {s : ℕ} (hs : a.socket = some s)
    (timeout : Bool) : (x.connectUnix a timeout).2.2.Settled := by
  have hset := (settled_openFd h s).setOption (x := x.openFd s) (by simp [openFd]) a.nonblock
  unfold connectUnix
  rw [hs]
  simp only
  generalize (x.openFd s).setOption a.nonblock = p at hset ⊢
  obtain ⟨_ | _, y⟩ := p
  · have hfd : 0 ≤ y.c.fd := hset.held rfl
    cases timeout with
    | false => exact hset.settled
    | true =>
        have huse := hset.settled.use hfd
        have hconnected : Left (if a.connect = .ok ∨ a.connect = .inProgress ∧ ¬y.c.blocking
            then (.ok, y.use) else y.use.waitReady a) := by
          split
          · exact ⟨huse, fun _ ↦ hfd⟩
          · exact huse.waitReady hfd a
        simp only [if_true]
        generalize (if a.connect = .ok ∨ a.connect = .inProgress ∧ ¬y.c.blocking
            then (.ok, y.use) else y.use.waitReady a) = q at hconnected ⊢
        obtain ⟨_ | _, z⟩ := q
        · have hblock : Left (if z.c.blocking then z.setOption a.block else (.ok, z)) :=
            .ite hconnected.settled (hconnected.held rfl)
              (hconnected.settled.setOption (hconnected.held rfl) a.block)
          simp only
          generalize (if z.c.blocking then z.setOption a.block else (.ok, z)) = r at hblock ⊢
          obtain ⟨_ | _, w⟩ := r
          · exact ⟨hblock.settled.sound, hblock.settled.held⟩
          · exact hblock.settled
        · exact hconnected.settled
  · exact hset.settled

theorem untouched_connectUnix (hs : a.socket = none) (timeout : Bool) :
    x.Untouched (x.connectUnix a timeout).2.2 := by
  unfold connectUnix
  rw [hs]
  exact ⟨rfl, rfl⟩

/-! ## The history only grows -/

theorem suffix_use (x : FdContext) : x.log <:+ x.use.log := List.suffix_cons _ _

theorem suffix_closeFd (x : FdContext) : x.log <:+ x.closeFd.log := by
  unfold FdContext.closeFd
  split
  · exact List.suffix_cons _ _
  · exact List.suffix_rfl

theorem suffix_setOption (x : FdContext) (done : Bool) : x.log <:+ (x.setOption done).2.log := by
  cases done with
  | false => exact x.suffix_use.trans (x.use.fail .io).suffix_closeFd
  | true => exact x.suffix_use

theorem suffix_waitReady (x : FdContext) (a : Calls) : x.log <:+ (x.waitReady a).2.log := by
  unfold waitReady
  split
  · cases a.poll with
    | failed | timedOut => exact x.suffix_use.trans (x.use.fail .io).suffix_closeFd
    | ready => cases a.socketError <;> exact x.suffix_use.trans x.use.suffix_use
  · exact (x.fail .io).suffix_closeFd

theorem suffix_bindSource (x : FdContext) (a : Calls) : x.log <:+ (x.bindSource a).2.log := by
  unfold bindSource
  split
  · exact List.suffix_rfl
  · split
    · exact x.suffix_use
    · split <;> exact x.suffix_use

theorem suffix_ite {c : Prop} [Decidable c] {p : Status × FdContext} (h : x.log <:+ p.2.log) :
    x.log <:+ (if c then p else (.ok, x)).2.log := by
  split
  · exact h
  · exact List.suffix_rfl

theorem suffix_afterConnect (x : FdContext) (a : Calls) (s : ℕ) :
    x.log <:+ (x.afterConnect a s).2.log := by
  have hblock : x.log <:+ (if x.c.blocking then x.setOption a.block else (.ok, x)).2.log :=
    suffix_ite (x.suffix_setOption a.block)
  unfold afterConnect
  generalize (if x.c.blocking then x.setOption a.block else (.ok, x)) = p at hblock ⊢
  obtain ⟨_ | _, y⟩ := p
  · have hdelay := hblock.trans (y.suffix_setOption a.nodelay)
    simp only
    generalize y.setOption a.nodelay = q at hdelay ⊢
    obtain ⟨_ | _, z⟩ := q <;> exact hdelay
  · exact hblock

theorem suffix_connectSocket (x : FdContext) (a : Calls) (s : ℕ) :
    x.log <:+ (x.connectSocket a s).2.log := by
  unfold connectSocket
  split
  · exact x.suffix_use.trans (x.use.suffix_afterConnect a s)
  · split
    · exact x.suffix_use.trans x.use.suffix_closeFd
    · split
      · exact x.suffix_use.trans (x.use.suffix_afterConnect a s)
      · split
        · exact x.suffix_use
        · have hwait := x.suffix_use.trans (x.use.suffix_waitReady a)
          generalize x.use.waitReady a = p at hwait ⊢
          obtain ⟨_ | _, y⟩ := p
          · exact hwait.trans (y.suffix_afterConnect a s)
          · exact hwait

theorem suffix_pass (x : FdContext) (a : Calls) (source : Bool) :
    x.log <:+ (x.pass a source).2.log := by
  unfold pass
  split
  · exact List.suffix_rfl
  · rename_i s _
    have hset : x.log <:+ ((x.openFd s).setOption a.nonblock).2.log :=
      (List.suffix_cons _ _).trans ((x.openFd s).suffix_setOption a.nonblock)
    generalize (x.openFd s).setOption a.nonblock = p at hset ⊢
    obtain ⟨_ | _, y⟩ := p
    · have hbind := hset.trans (suffix_ite (c := source) (y.suffix_bindSource a))
      simp only
      generalize (if source then y.bindSource a else (.ok, y)) = q at hbind ⊢
      obtain ⟨_ | _, z⟩ := q
      · exact hbind.trans (z.suffix_connectSocket a s)
      · exact hbind
    · exact hset

theorem suffix_tryAddress (x : FdContext) (calls : ℕ → Calls) (source : Bool) (retries k : ℕ) :
    x.log <:+ (x.tryAddress calls source retries k).2.log := by
  induction retries generalizing k x with
  | zero => exact List.suffix_rfl
  | succ retries ih =>
      have hpass := x.suffix_pass (calls k) source
      unfold tryAddress
      generalize x.pass (calls k) source = p at hpass ⊢
      obtain ⟨_ | _ | _ | _, y⟩ := p
      · exact hpass
      · simp only
        split
        · exact hpass
        · exact (hpass.trans y.suffix_closeFd).trans (ih y.closeFd (k + 1))
      · exact hpass
      · exact hpass

theorem suffix_tryAddresses (x : FdContext) (calls : ℕ → Calls) (source : Bool)
    (addresses retries k : ℕ) :
    x.log <:+ (x.tryAddresses calls source addresses retries k).2.2.log := by
  induction addresses generalizing retries k x with
  | zero => exact List.suffix_rfl
  | succ addresses ih =>
      have htry := x.suffix_tryAddress calls source retries k
      unfold tryAddresses
      generalize x.tryAddress calls source retries k = p at htry ⊢
      obtain ⟨_ | _ | _, y⟩ := p
      · exact htry.trans (ih y _ _)
      · exact htry
      · exact htry

theorem suffix_connectTcp (x : FdContext) (net : Network) (timeout source : Bool) :
    x.log <:+ (x.connectTcp net timeout source).2.2.log := by
  unfold connectTcp
  split
  · split
    · exact List.suffix_rfl
    · exact x.suffix_tryAddresses net.calls source _ _ _
  · exact List.suffix_rfl

theorem suffix_connectUnix (x : FdContext) (a : Calls) (timeout : Bool) :
    x.log <:+ (x.connectUnix a timeout).2.2.log := by
  unfold connectUnix
  split
  · exact List.suffix_rfl
  · rename_i s _
    have hset : x.log <:+ ((x.openFd s).setOption a.nonblock).2.log :=
      (List.suffix_cons _ _).trans ((x.openFd s).suffix_setOption a.nonblock)
    generalize (x.openFd s).setOption a.nonblock = p at hset ⊢
    obtain ⟨_ | _, y⟩ := p
    · cases timeout with
      | false => exact hset
      | true =>
          have hconnected : x.log <:+ (if a.connect = .ok ∨ a.connect = .inProgress ∧ ¬y.c.blocking
              then (.ok, y.use) else y.use.waitReady a : Status × FdContext).2.log := by
            split
            · exact hset.trans y.suffix_use
            · exact (hset.trans y.suffix_use).trans (y.use.suffix_waitReady a)
          simp only [if_true]
          generalize (if a.connect = .ok ∨ a.connect = .inProgress ∧ ¬y.c.blocking
              then (.ok, y.use) else y.use.waitReady a : Status × FdContext) = q at hconnected ⊢
          obtain ⟨_ | _, z⟩ := q
          · have hblock := hconnected.trans
              (suffix_ite (c := z.c.blocking) (z.suffix_setOption a.block))
            simp only
            generalize (if z.c.blocking then z.setOption a.block else (.ok, z)) = r at hblock ⊢
            obtain ⟨_ | _, w⟩ := r <;> exact hblock
          · exact hconnected
    · exact hset

end FdContext

/-! ## In every run -/

/-- Some address of the server gives a socket. -/
def Network.opens (net : Network) : Bool :=
  net.addresses.any fun addresses ↦
    (List.range addresses).any fun k ↦ (net.calls k).socket.isSome

namespace NetContext

/-- A connect of the context comes to a socket. -/
def Connects (s : NetContext) (net : Network) (calls : Calls) : Prop :=
  match s.type with
  | .tcp => s.timeout = true ∧ net.opens = true
  | .unix => calls.socket.isSome = true

instance (s : NetContext) (net : Network) (calls : Calls) : Decidable (s.Connects net calls) := by
  unfold Connects
  cases s.type <;> infer_instance

/-- A reconnect that closes a descriptor gets a new one. -/
def Renews (s : NetContext) : NetCall → Prop
  | .reconnect net calls => 0 < s.c.fd → s.Connects net calls
  | _ => True

instance (s : NetContext) : (call : NetCall) → Decidable (s.Renews call)
  | .reconnect _ _ => inferInstanceAs (Decidable (_ → _))
  | .connectTcp .. | .connectUnix .. | .connectFd .. | .free | .freeKeepFd => .isTrue trivial

/-- Every descriptor was closed at most once for each time it was opened, and none
was used or handed out that was closed. -/
def Sound (s : NetContext) : Prop := FdOp.Sound s.log

instance : DecidablePred Sound := fun s ↦ FdOp.Sound.decidable s.log

/-- No descriptor is closed more often than the context opened it. -/
theorem Sound.closed_le_opened {s : NetContext} (h : s.Sound) (fd : ℤ) :
    s.log.count (.closed fd) ≤ s.log.count (.opened fd) :=
  (Nat.le_add_right _ _).trans (FdOp.Sound.count_closed h fd)

variable {s s' : NetContext} {call : NetCall}

theorem settled_connectTcp {net : Network} {timeout : Bool} (h : FdOp.Sound s.log)
    (htimeout : timeout = true) (hopens : net.opens = true) (source : Bool) :
    (s.connectTcp net timeout source).toFdContext.Settled := by
  simp only [Network.opens, Option.any_eq_true, List.any_eq_true, List.mem_range] at hopens
  obtain ⟨addresses, haddresses, k, hk, hsome⟩ := hopens
  simp only [connectTcp, FdContext.connectTcp, htimeout, if_true, haddresses]
  refine FdContext.settled_tryAddresses h source ⟨k, hk, ?_⟩
  rw [Nat.zero_add]
  exact Option.isSome_iff_ne_none.mp hsome

theorem untouched_connectTcp {net : Network} {timeout : Bool}
    (h : ¬(timeout = true ∧ net.opens = true)) (source : Bool) :
    s.toFdContext.Untouched (s.connectTcp net timeout source).toFdContext := by
  simp only [connectTcp, FdContext.connectTcp]
  cases timeout with
  | false => exact ⟨rfl, rfl⟩
  | true =>
      simp only [if_true]
      cases haddresses : net.addresses with
      | none => exact ⟨rfl, rfl⟩
      | some addresses =>
          refine FdContext.untouched_tryAddresses source fun i hi ↦ ?_
          rw [Nat.zero_add]
          by_contra hsome
          refine h ⟨rfl, ?_⟩
          simp only [Network.opens, haddresses, Option.any_some, List.any_eq_true, List.mem_range]
          exact ⟨i, hi, Option.isSome_iff_ne_none.mpr hsome⟩

theorem settled_connectAgain {net : Network} {calls : Calls} (h : FdOp.Sound s.log)
    (hconnects : s.Connects net calls) : (s.connectAgain net calls).Settled := by
  unfold connectAgain
  unfold Connects at hconnects
  cases htype : s.type <;> simp only [htype] at hconnects ⊢
  · exact settled_connectTcp h hconnects.1 hconnects.2 s.source
  · obtain ⟨fd, hfd⟩ := Option.isSome_iff_exists.mp hconnects
    exact FdContext.settled_connectUnix h hfd s.timeout

theorem untouched_connectAgain {net : Network} {calls : Calls}
    (hconnects : ¬s.Connects net calls) :
    s.Untouched (s.connectAgain net calls).toFdContext := by
  unfold connectAgain
  unfold Connects at hconnects
  cases htype : s.type <;> simp only [htype] at hconnects ⊢
  · exact untouched_connectTcp hconnects s.source
  · exact FdContext.untouched_connectUnix (Option.not_isSome_iff_eq_none.mp hconnects) s.timeout

theorem suffix_connectAgain (s : NetContext) (net : Network) (calls : Calls) :
    s.log <:+ (s.connectAgain net calls).log := by
  unfold connectAgain
  split
  · exact s.suffix_connectTcp net s.timeout s.source
  · exact s.suffix_connectUnix calls s.timeout

theorem phase_connectAgain (s : NetContext) (net : Network) (calls : Calls) :
    (s.connectAgain net calls).phase = s.phase := by
  unfold connectAgain
  split <;> rfl

/-- What the runs that meet the condition keep. -/
structure Good (s : NetContext) : Prop where
  sound : s.Sound
  held : s.phase = .live → 0 < s.c.fd → FdOp.Open s.c.fd s.log
  fresh : s.phase = .live → 0 ≤ s.c.fd → ¬FdOp.Stale s.c.fd s.log
  absent : s.phase = .absent → s.log = [] ∧ s.c.fd = 0

/-- The context names a descriptor that it has closed. -/
structure Dangling (s : NetContext) : Prop where
  live : s.phase = .live
  positive : 0 < s.c.fd
  stale : FdOp.Stale s.c.fd s.log

/-- A connect from where nothing is held comes to one of the two. -/
theorem Good.of_connect {t : NetContext} (hlive : t.phase = .live)
    (hdone : t.Settled ∨ s.Untouched t.toFdContext) (hsound : s.Sound) (hfd : s.c.fd ≤ 0)
    (hfresh : 0 ≤ s.c.fd → ¬FdOp.Stale s.c.fd s.log) : t.Good := by
  rcases hdone with hsettled | huntouched
  · refine ⟨hsettled.sound, fun _ hpos ↦ hsettled.held (by omega), ?_, by simp [hlive]⟩
    exact fun _ hpos ↦ (hsettled.held hpos).not_stale
  · refine ⟨?_, fun _ hpos ↦ ?_, fun _ hpos ↦ ?_, by simp [hlive]⟩
    · rw [Sound, huntouched.log]
      exact hsound
    · rw [huntouched.fd] at hpos
      omega
    · rw [huntouched.fd] at hpos ⊢
      rw [huntouched.log]
      exact hfresh hpos

theorem Good.closeOld (h : s.Good) (hlive : s.phase = .live) : s.closeOld.Sound := by
  simp only [Sound, NetContext.closeOld]
  split
  · rename_i hpos
    exact ⟨h.held hlive hpos, h.sound⟩
  · exact h.sound

theorem Good.redisFree (h : s.Good) (hlive : s.phase = .live) : s.redisFree.Good := by
  refine ⟨?_, ?_, ?_, ?_⟩
  · simp only [Sound, NetContext.redisFree]
    split
    · rename_i hpos
      exact ⟨h.held hlive hpos, h.sound⟩
    · exact h.sound
  all_goals simp [NetContext.redisFree]

/-- There is nothing left to close. -/
theorem log_redisFreeKeepFd (s : NetContext) : s.redisFreeKeepFd.2.log = s.keepFd.log := by
  have hneg : ¬0 < s.keepFd.c.fd := by
    simp [keepFd]
  simp only [redisFreeKeepFd, redisFree, if_neg hneg]

theorem Good.redisFreeKeepFd (h : s.Good) (hlive : s.phase = .live) :
    s.redisFreeKeepFd.2.Good := by
  refine ⟨?_, ?_, ?_, ?_⟩
  · rw [Sound, log_redisFreeKeepFd, NetContext.keepFd]
    simp only
    split
    · rename_i hpos
      exact ⟨h.fresh hlive hpos, h.sound⟩
    · exact h.sound
  all_goals simp [NetContext.redisFreeKeepFd, NetContext.redisFree]

/-- A step that meets the condition. -/
theorem Good.step (h : s.Good) (hrenews : s.Renews call) (hstep : s.step call = some s') :
    s'.Good := by
  unfold NetContext.step at hstep
  split at hstep
  · rename_i blocking reuseaddr timeout source net habsent
    obtain rfl := Option.some.inj hstep
    obtain ⟨hlog, hfd⟩ := h.absent habsent
    by_cases hopens : timeout = true ∧ net.opens = true
    · exact .of_connect (s := s) rfl
        (Or.inl (settled_connectTcp (s := s.init blocking reuseaddr) h.sound hopens.1 hopens.2
          source)) h.sound (by omega) fun _ ↦ by simp [hlog, FdOp.Stale]
    · exact .of_connect (s := s.init blocking reuseaddr) rfl
        (Or.inr (untouched_connectTcp hopens source)) h.sound hfd.le fun _ ↦ by
          simp [init, hlog, FdOp.Stale]
  · rename_i blocking timeout calls habsent
    obtain rfl := Option.some.inj hstep
    obtain ⟨hlog, hfd⟩ := h.absent habsent
    cases hsocket : calls.socket with
    | none =>
        exact .of_connect (s := s.init blocking false) rfl
          (Or.inr (FdContext.untouched_connectUnix hsocket timeout)) h.sound hfd.le fun _ ↦ by
            simp [init, hlog, FdOp.Stale]
    | some fd =>
        have hsettled := FdContext.settled_connectUnix
          (x := (s.init blocking false).toFdContext) h.sound hsocket timeout
        exact .of_connect (s := s) rfl (Or.inl hsettled) h.sound hfd.le fun _ ↦ by
          simp [hlog, FdOp.Stale]
  · rename_i fd habsent
    obtain rfl := Option.some.inj hstep
    exact ⟨h.sound, fun _ _ ↦ Or.inl rfl, fun _ _ hstale ↦ hstale.1 rfl, by simp⟩
  · rename_i net calls hlive
    obtain rfl := Option.some.inj hstep
    have hlive' : (s.redisReconnect net calls).phase = .live :=
      (phase_connectAgain _ _ _).trans hlive
    by_cases hconnects : s.closeOld.Connects net calls
    · have hsettled := settled_connectAgain (h.closeOld hlive) hconnects
      refine ⟨hsettled.sound, fun _ hpos ↦ hsettled.held hpos.le, ?_, by simp [hlive']⟩
      exact fun _ hpos ↦ (hsettled.held hpos).not_stale
    · have hfd : s.c.fd ≤ 0 := by
        by_contra hpos
        exact hconnects (hrenews (by omega))
      refine .of_connect (s := s.closeOld) hlive' (Or.inr (untouched_connectAgain hconnects))
        (h.closeOld hlive) hfd fun hpos ↦ ?_
      have hlog : s.closeOld.log = s.log := by
        simp only [NetContext.closeOld]
        rw [if_neg (by omega)]
      rw [hlog]
      exact h.fresh hlive hpos
  · rename_i hlive
    exact Option.some.inj hstep ▸ h.redisFree hlive
  · rename_i hlive
    exact Option.some.inj hstep ▸ h.redisFreeKeepFd hlive
  · simp at hstep

/-- A step that does not meet it leaves the context with a closed descriptor. -/
theorem Good.dangling (h : s.Good) (hrenews : ¬s.Renews call) (hstep : s.step call = some s') :
    s'.Sound ∧ s'.Dangling := by
  cases call with
  | reconnect net calls =>
      simp only [Renews, Classical.not_imp] at hrenews
      obtain ⟨hpos, hconnects⟩ := hrenews
      cases hphase : s.phase <;> simp only [NetContext.step, hphase] at hstep
      · simp at hstep
      · obtain rfl := Option.some.inj hstep
        have huntouched := untouched_connectAgain (s := s.closeOld) hconnects
        have hlog : (s.redisReconnect net calls).log = .closed s.c.fd :: s.log :=
          huntouched.log.trans (if_pos hpos)
        have hfd : (s.redisReconnect net calls).c.fd = s.c.fd := huntouched.fd
        refine ⟨?_, (phase_connectAgain _ _ _).trans hphase, by omega, ?_⟩
        · rw [Sound, hlog]
          exact ⟨h.held hphase hpos, h.sound⟩
        · rw [hlog, hfd]
          exact Or.inl rfl
      · simp at hstep
  | _ => exact (hrenews trivial).elim

/-- Whatever is called next then closes or hands out the closed descriptor. -/
theorem Dangling.step (h : s.Dangling) (hstep : s.step call = some s') : ¬s'.Sound := by
  have hclose : ∀ {log : List FdOp}, (.closed s.c.fd :: s.log) <:+ log → ¬FdOp.Sound log := by
    rintro log ⟨new, rfl⟩ hsound
    exact (FdOp.Sound.of_append hsound).1.not_stale h.stale
  have hpos := h.positive
  cases call with
  | reconnect net calls =>
      simp only [NetContext.step, h.live, Option.some.injEq] at hstep
      subst hstep
      refine hclose ?_
      have hlog : s.closeOld.log = .closed s.c.fd :: s.log := if_pos hpos
      exact hlog ▸ suffix_connectAgain s.closeOld net calls
  | free =>
      simp only [NetContext.step, h.live, Option.some.injEq] at hstep
      subst hstep
      refine hclose ?_
      simp only [NetContext.redisFree, if_pos hpos]
      exact List.suffix_rfl
  | freeKeepFd =>
      simp only [NetContext.step, h.live, Option.some.injEq] at hstep
      subst hstep
      intro hsound
      have hused : s.keepFd.log = .used s.c.fd :: s.log := if_pos hpos.le
      rw [Sound, log_redisFreeKeepFd, hused] at hsound
      exact hsound.1 h.stale
  | _ => simp [NetContext.step, h.live] at hstep

theorem suffix_step (hstep : s.step call = some s') : s.log <:+ s'.log := by
  have hfree : ∀ t : NetContext, t.log <:+ t.redisFree.log := by
    intro t
    simp only [NetContext.redisFree]
    split
    · exact List.suffix_cons _ _
    · exact List.suffix_rfl
  unfold NetContext.step at hstep
  split at hstep
  · rename_i blocking reuseaddr timeout source net _
    obtain rfl := Option.some.inj hstep
    exact (s.init blocking reuseaddr).suffix_connectTcp net timeout source
  · rename_i blocking timeout calls _
    obtain rfl := Option.some.inj hstep
    exact (s.init blocking false).suffix_connectUnix calls timeout
  · exact Option.some.inj hstep ▸ List.suffix_cons _ _
  · rename_i net calls _
    obtain rfl := Option.some.inj hstep
    have hclose : s.log <:+ s.closeOld.log := by
      simp only [NetContext.closeOld]
      split
      · exact List.suffix_cons _ _
      · exact List.suffix_rfl
    exact hclose.trans (suffix_connectAgain s.closeOld net calls)
  · exact Option.some.inj hstep ▸ hfree s
  · obtain rfl := Option.some.inj hstep
    have huse : s.log <:+ s.keepFd.log := by
      simp only [NetContext.keepFd]
      split
      · exact List.suffix_cons _ _
      · exact List.suffix_rfl
    exact huse.trans (hfree s.keepFd)
  · simp at hstep

theorem sound_of_run {calls : List NetCall} (hrun : machine.run s calls = some s')
    (h : s'.Sound) : s.Sound := by
  induction calls generalizing s with
  | nil => exact Option.some.inj hrun ▸ h
  | cons call calls ih =>
      obtain ⟨s₁, hstep, hrest⟩ := Option.bind_eq_some_iff.mp hrun
      obtain ⟨new, hnew⟩ := suffix_step hstep
      have hsound : FdOp.Sound (new ++ s.log) := hnew ▸ ih hrest
      exact hsound.of_append

theorem Good.run (h : s.Good) {calls : List NetCall} (hrun : machine.run s calls = some s') :
    s'.Sound ↔ machine.Meets Renews s calls.dropLast := by
  induction calls generalizing s with
  | nil => exact ⟨fun _ ↦ trivial, fun _ ↦ Option.some.inj hrun ▸ h.sound⟩
  | cons call calls ih =>
      obtain ⟨s₁, hstep, hrest⟩ := Option.bind_eq_some_iff.mp hrun
      by_cases hrenews : s.Renews call
      · have hgood := h.step hrenews hstep
        cases calls with
        | nil => exact ⟨fun _ ↦ trivial, fun _ ↦ Option.some.inj hrest ▸ hgood.sound⟩
        | cons call' calls =>
            have hstep' : machine.step s call = some s₁ := hstep
            rw [ih hgood hrest, List.dropLast_cons_cons, Machine.Meets, hstep']
            exact ⟨fun hmeets ↦ ⟨hrenews, hmeets⟩, fun hmeets ↦ hmeets.2⟩
      · obtain ⟨hsound, hdangling⟩ := h.dangling hrenews hstep
        cases calls with
        | nil => exact ⟨fun _ ↦ trivial, fun _ ↦ Option.some.inj hrest ▸ hsound⟩
        | cons call' calls =>
            obtain ⟨s₂, hstep', hrest'⟩ := Option.bind_eq_some_iff.mp hrest
            rw [List.dropLast_cons_cons, Machine.Meets]
            constructor
            · intro hs'
              exact (hdangling.step hstep' (sound_of_run hrest' hs')).elim
            · exact fun hmeets ↦ (hrenews hmeets.1).elim

theorem absent_good : absent.Good := by
  constructor <;> simp [absent, Sound, FdOp.Sound]

/-- No descriptor is closed twice, and none is used after it was closed, exactly
when every reconnect that closes a descriptor and is not the last call comes to a
new socket. -/
theorem run_sound_iff {calls : List NetCall} (hrun : machine.run absent calls = some s) :
    s.Sound ↔ machine.Meets Renews absent calls.dropLast :=
  absent_good.run hrun

/-- One address, whose socket has the number `fd` and connects. -/
def oneAddress (fd : ℕ) : Network :=
  ⟨some 1, none, fun _ ↦ ⟨some fd, true, none, true, .ok, .ready, false, true, true⟩⟩

def noAddress : Network := { oneAddress 5 with inet := none }

/-- A connect, a reconnect that succeeds and a free. -/
theorem run_sound_iff_reconnect :
    ∃ s, machine.run absent
      [.connectTcp true false true false (oneAddress 5),
        .reconnect (oneAddress 6) ((oneAddress 6).calls 0), .free] = some s ∧ s.Sound := by
  obtain ⟨s, hrun, -⟩ := machine.run_spec absent
    [.connectTcp true false true false (oneAddress 5),
      .reconnect (oneAddress 6) ((oneAddress 6).calls 0), .free] (fun _ ↦ true) (by decide)
  exact ⟨s, hrun, (run_sound_iff hrun).mpr (by decide)⟩

/-- The name of the server does not resolve at the reconnect: `redisFree` closes
the old descriptor a second time. -/
theorem failed_reconnect_closes_twice :
    ∃ s, machine.run absent
      [.connectTcp true false true false (oneAddress 5),
        .reconnect noAddress (noAddress.calls 0), .free] = some s ∧
      s.log.count (.opened 5) = 1 ∧ s.log.count (.closed 5) = 2 ∧ ¬s.Sound := by
  obtain ⟨s, hrun, hs⟩ := machine.run_spec absent
    [.connectTcp true false true false (oneAddress 5),
      .reconnect noAddress (noAddress.calls 0), .free]
    (fun s ↦ decide (s.log.count (.opened 5) = 1 ∧ s.log.count (.closed 5) = 2 ∧
      ¬s.Sound)) (by decide)
  exact ⟨s, hrun, of_decide_eq_true hs⟩

end NetContext

end Connect

end MuxHiredis
