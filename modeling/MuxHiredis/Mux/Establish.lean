import MuxHiredis.Lib.Attempts
import MuxHiredis.Format.Basic

/-!
# Establishing a connection

`_redisContextConnectTcp` and the functions that attach what it made to the
event loop, whatever the system calls give.  Descriptions of errors are left out,
and no timeout is set.
-/

namespace MuxHiredis

namespace Connect

/-! ## What the system calls give -/

/-- What `connect` returns, or the `errno` it fails with. -/
inductive ConnectResult where
  | ok | inProgress | hostUnreach | addrNotAvail | other
  deriving DecidableEq, Repr

inductive PollResult where
  | failed | timedOut | ready
  deriving DecidableEq, Repr

/-- The system calls of one pass of the loop over the addresses: the descriptor
of `socket`, whether both calls of `fcntl` succeed, what the source address
resolves to and which of it can be bound, and so on. -/
structure Calls where
  socket : Option ℕ
  nonblock : Bool
  sourceInfo : Option (List Bool)
  reuse : Bool
  connect : ConnectResult
  poll : PollResult
  socketError : Bool
  block : Bool
  nodelay : Bool

/-- The part of a `redisContext` that connecting is about. -/
structure SocketContext where
  fd : ℤ
  err : Option RedisErr
  blocking : Bool
  reuseaddr : Bool
  connected : Bool

variable (a : Calls) (c : SocketContext)

/-! ## One pass -/

def redisContextCloseFd : SocketContext := if 0 ≤ c.fd then { c with fd := -1 } else c

def SocketContext.fail (type : RedisErr) : SocketContext := { c with err := some type }

def redisSetBlocking (done : Bool) : Status × SocketContext :=
  if done then (.ok, c) else (.err, redisContextCloseFd (c.fail .io))

def redisSetTcpNoDelay (done : Bool) : Status × SocketContext :=
  if done then (.ok, c) else (.err, redisContextCloseFd (c.fail .io))

def redisCheckSocketError (error : Bool) : Status × SocketContext :=
  if error then (.err, c.fail .io) else (.ok, c)

def redisContextWaitReady : Status × SocketContext :=
  if a.connect = .inProgress then
    match a.poll with
    | .failed | .timedOut => (.err, redisContextCloseFd (c.fail .io))
    | .ready => redisCheckSocketError c a.socketError
  else (.err, redisContextCloseFd (c.fail .io))

/-- The socket is bound to the source address. -/
def bindSource : Status × SocketContext :=
  match a.sourceInfo with
  | none => (.err, c.fail .other)
  | some binds =>
      if c.reuseaddr && !a.reuse then (.err, c)
      else if binds.any id then (.ok, c)
      else (.err, c.fail .other)

/-- How a pass ends: `continue`, `goto addrretry` if there are retries left,
`goto error` or `goto end`. -/
inductive Pass where
  | next (c : SocketContext)
  | again (c : SocketContext)
  | error (c : SocketContext)
  | done (s : ℕ) (c : SocketContext)

/-- From where the socket is connected, or will be. -/
def afterConnect (s : ℕ) : Pass :=
  match if c.blocking then redisSetBlocking c a.block else (.ok, c) with
  | (.err, c) => .error c
  | (.ok, c) =>
      match redisSetTcpNoDelay c a.nodelay with
      | (.err, c) => .error c
      | (.ok, c) => .done s { c with connected := true }

def connectSocket (s : ℕ) : Pass :=
  if a.connect = .ok then afterConnect a c s
  else if a.connect = .hostUnreach then .next (redisContextCloseFd c)
  else if a.connect = .inProgress ∧ ¬c.blocking then afterConnect a c s
  else if a.connect = .addrNotAvail ∧ c.reuseaddr then .again c
  else
    match redisContextWaitReady a c with
    | (.err, c) => .error c
    | (.ok, c) => afterConnect a c s

def pass (source : Bool) : Pass :=
  match a.socket with
  | none => .next c
  | some s =>
      match redisSetBlocking { c with fd := s } a.nonblock with
      | (.err, c) => .error c
      | (.ok, c) =>
          match if source then bindSource a c else (.ok, c) with
          | (.err, c) => .error c
          | (.ok, c) => connectSocket a c s

/-! ## The loop -/

/-- The passes for one address end in one of these. -/
inductive Tried where
  | next (retries k : ℕ) (c : SocketContext)
  | error (c : SocketContext)
  | done (s : ℕ) (c : SocketContext)

/-- `REDIS_CONNECT_RETRIES`. -/
def connectRetries : ℕ := 10

/-- The passes for one address, from the pass `k` on.  `retries` is
`REDIS_CONNECT_RETRIES` less `reuses`. -/
def tryAddress (calls : ℕ → Calls) (source : Bool) : ℕ → ℕ → SocketContext → Tried
  | 0, _, c => .error c
  | retries + 1, k, c =>
      match pass (calls k) c source with
      | .next c => .next (retries + 1) (k + 1) c
      | .error c => .error c
      | .done s c => .done s c
      | .again c =>
          if retries = 0 then .error c
          else tryAddress calls source retries (k + 1) (redisContextCloseFd c)

/-- The loop over the addresses, with the status, the socket that it returned
with and the context. -/
def tryAddresses (calls : ℕ → Calls) (source : Bool) :
    ℕ → ℕ → ℕ → SocketContext → Status × Option ℕ × SocketContext
  | 0, _, _, c => (.err, none, c.fail .other)
  | addresses + 1, retries, k, c =>
      match tryAddress calls source retries k c with
      | .next retries k c => tryAddresses calls source addresses retries k c
      | .error c => (.err, none, c)
      | .done s c => (.ok, some s, c)

/-- What the address resolves to, as IPv4 and as IPv6, and the passes. -/
structure Network where
  inet : Option ℕ
  inet6 : Option ℕ
  calls : ℕ → Calls

/-- How many addresses there are, if any was found. -/
def Network.addresses (net : Network) : Option ℕ := net.inet.orElse fun _ ↦ net.inet6

def redisContextConnectBindTcp (net : Network) (c : SocketContext) (source : Bool) :
    Status × Option ℕ × SocketContext :=
  match net.addresses with
  | none => (.err, none, c.fail .other)
  | some addresses => tryAddresses net.calls source addresses connectRetries 0 c

def redisContextConnectTcp (net : Network) (c : SocketContext) :
    Status × Option ℕ × SocketContext := redisContextConnectBindTcp net c false

/-! ## The arguments -/

def isspace (b : UInt8) : Bool := b == 32 || (9 ≤ b && b < 14)

/-- What `strtol` makes of a number that a `long` cannot hold. -/
def clampLong (v : ℤ) : ℤ := max (-2 ^ 63) (min v (2 ^ 63 - 1))

/-- `%d`: the number is read as a `long` and stored as an `int`. -/
def scanInt (str : List UInt8) : Option (ℤ × List UInt8) :=
  let str := str.dropWhile isspace
  let unsigned := if str.head? = some 43 ∨ str.head? = some 45 then str.tail else str
  let digits := unsigned.takeWhile Format.isdigit
  if digits = [] then none
  else
    let v : ℤ := digits.foldl (fun v b ↦ 10 * v + (b.toNat - 48 : ℕ)) 0
    let v := clampLong (if str.head? = some 45 then -v else v)
    some (wrap32 v, unsigned.dropWhile Format.isdigit)

/-- `%d.%d` and so on, with what is left of the string. -/
def scanInts : ℕ → List UInt8 → List ℤ × List UInt8
  | 0, str => ([], str)
  | n + 1, str =>
      match scanInt str with
      | none => ([], str)
      | some (v, rest) =>
          if n ≠ 0 ∧ rest.head? = some 46 then
            let (a, rest) := scanInts n rest.tail
            (v :: a, rest)
          else ([v], rest)

def isValidIP (str : List UInt8) : Bool :=
  let (a, rest) := scanInts 4 str
  a.length = 4 && rest.isEmpty && a.all fun v ↦ 0 ≤ v && v ≤ 255

/-! ## Attaching the context -/

inductive FileProc where
  | redisAeReadEvent | redisAeWriteEvent | taskDeal
  deriving DecidableEq, Repr

/-- A call of `aeCreateFileEvent`; all but `redisAeWriteEvent` wait for `AE_READABLE`. -/
structure FileEvent where
  fd : ℤ
  proc : FileProc
  deriving DecidableEq, Repr

/-- The `redisAeEvents` of a context. -/
structure AeEvents where
  fd : ℤ
  reading : Bool
  writing : Bool

structure AsyncContext where
  c : SocketContext
  err : Option RedisErr
  ev : Option AeEvents
  onConnect : Bool
  onDisconnect : Bool

def redisAsyncInitialize (realloc : Bool) (c : SocketContext) : Option AsyncContext :=
  if realloc then
    some ⟨{ c with connected := false }, none, none, false, false⟩
  else none

def redisAsyncCopyError (ac : AsyncContext) : AsyncContext := { ac with err := ac.c.err }

def redisAeAttach (ac : AsyncContext) : Status × AsyncContext :=
  match ac.ev with
  | some _ => (.err, ac)
  | none => (.ok, { ac with ev := some ⟨ac.c.fd, false, false⟩ })

/-- `_EL_ADD_WRITE`. -/
def redisAeAddWrite (ac : AsyncContext) : AsyncContext × List FileEvent :=
  match ac.ev with
  | none => (ac, [])
  | some e =>
      if e.writing then (ac, [])
      else ({ ac with ev := some { e with writing := true } }, [⟨e.fd, .redisAeWriteEvent⟩])

def redisAsyncSetConnectCallback (ac : AsyncContext) : Status × AsyncContext × List FileEvent :=
  if ac.onConnect then (.err, ac, [])
  else (.ok, redisAeAddWrite { ac with onConnect := true })

def redisAsyncSetDisconnectCallback (ac : AsyncContext) : Status × AsyncContext :=
  if ac.onDisconnect then (.err, ac) else (.ok, { ac with onDisconnect := true })

def initAttachContext (taskFd : ℕ) (ac : AsyncContext) : AsyncContext × List FileEvent :=
  let (_, ac) := redisAeAttach ac
  let (_, ac, events) := redisAsyncSetConnectCallback ac
  let (_, ac) := redisAsyncSetDisconnectCallback ac
  (ac, events ++ [⟨taskFd, .taskDeal⟩])

/-- `attachAsync` and `attachAsyncNoLock`; `status` says whether the status is
`REDIS_CONNECTED` when the wait ends. -/
def attachAsync (taskFd : ℕ) (status : Bool) (ac : AsyncContext) :
    ℤ × AsyncContext × List FileEvent :=
  (if status then 0 else -3, initAttachContext taskFd ac)

/-! ## Connecting -/

/-- What the functions that connect meet with: what `__initMpClient` returns, the
end of the pipe that is read, whether there is memory for the context and then
for more of it, the network, and the status at the end. -/
structure World where
  initMpClient : ℤ
  taskFd : ℕ
  calloc : Bool
  realloc : Bool
  net : Network
  status : Bool

/-- What the function that connects the socket gave, if it was called, with the
socket; the events, and what is returned. -/
structure Run (ρ : Type) where
  tcp : Option (Status × Option ℕ × SocketContext)
  events : List FileEvent
  ret : ρ

def redisContextInit (w : World) : Option SocketContext :=
  if w.calloc then some ⟨0, none, false, false, false⟩ else none

/-- The part that the functions below have in common.  `failed` is for what fails
before the context is attached. -/
def establish {ρ : Type} (w : World)
    (connectTcp : SocketContext → Status × Option ℕ × SocketContext) (reuse : Bool)
    (failed : ρ) (result : ℤ → AsyncContext → ρ) : Run ρ :=
  match redisContextInit w with
  | none => ⟨none, [], failed⟩
  | some c =>
      let tcp := connectTcp { c with blocking := false, reuseaddr := reuse }
      match redisAsyncInitialize w.realloc tcp.2.2 with
      | none => ⟨some tcp, [], failed⟩
      | some ac =>
          let (ret, ac, events) := attachAsync w.taskFd w.status (redisAsyncCopyError ac)
          ⟨some tcp, events, result ret ac⟩

/-- The arguments are checked and the client is set up. -/
def connectable (w : World) (ip : Option (List UInt8)) (port : ℤ) : Bool :=
  ip.any isValidIP && 0 ≤ port && w.initMpClient = 0

/-- An `xRedisContext` is freed again unless it is connected. -/
def connectWith (w : World) (connectTcp : SocketContext → Status × Option ℕ × SocketContext)
    (reuse : Bool) (ip : Option (List UInt8)) (port : ℤ) : Run (Option AsyncContext) :=
  if connectable w ip port then
    establish w connectTcp reuse none fun ret ac ↦ if ret = 0 then some ac else none
  else ⟨none, [], none⟩

def xRedisConnectNonBlockTimeOut (w : World) (ip : Option (List UInt8)) (port : ℤ) :
    Run (Option AsyncContext) := connectWith w (redisContextConnectTcp w.net) false ip port

def xRedisConnectBindNonBlock (w : World) (ip : Option (List UInt8)) (port : ℤ)
    (source_addr : Option (List UInt8)) : Run (Option AsyncContext) :=
  connectWith w (redisContextConnectBindTcp w.net · source_addr.isSome) false ip port

def xRedisConnectBindNonBlockWithReuse (w : World) (ip : Option (List UInt8)) (port : ℤ)
    (source_addr : Option (List UInt8)) : Run (Option AsyncContext) :=
  connectWith w (redisContextConnectBindTcp w.net · source_addr.isSome) true ip port

/-- `__xRedisReconnectConnectNonBlock`, of an `xRedisContext` whose address was
checked when it was made; `xc` says whether there is one. -/
def reconnectConnectNonBlock (w : World) (xc : Bool) : Run ℤ :=
  if xc then establish w (redisContextConnectTcp w.net) false (-1) fun ret _ ↦ ret
  else ⟨none, [], -1⟩

/-- Any failure is `REDIS_ERR` here. -/
def xRedisReconnectConnectNonBlock (w : World) (xc : Bool) : Run ℤ :=
  if xc then
    establish w (redisContextConnectTcp w.net) false (-1) fun ret _ ↦ if ret = 0 then 0 else -1
  else ⟨none, [], -1⟩

/-! ## When a connection is made -/

open Attempts (Kind Succeeds)

/-- A socket is bound if it has to be. -/
def Calls.bound (a : Calls) (source reuse : Bool) : Bool :=
  match a.sourceInfo with
  | none => !source
  | some binds => !source || ((!reuse || a.reuse) && binds.any id)

/-- What a pass comes to, of a context that does not block. -/
def Calls.kind (a : Calls) (source reuse : Bool) : Kind :=
  if a.socket = none then .next
  else if a.nonblock && a.bound source reuse then
    match a.connect with
    | .ok | .inProgress => if a.nodelay then .done else .stop
    | .hostUnreach => .next
    | .addrNotAvail => if reuse then .again else .stop
    | .other => .stop
  else .stop

/-- What the passes come to one after the other. -/
def kinds (calls : ℕ → Calls) (source reuse : Bool) (i : ℕ) : Kind := (calls i).kind source reuse

/-- What no pass changes unless it ends everything. -/
structure Kept (c c' : SocketContext) : Prop where
  err : c'.err = c.err
  blocking : c'.blocking = c.blocking
  reuseaddr : c'.reuseaddr = c.reuseaddr

theorem Kept.trans {c c' c'' : SocketContext} (h : Kept c c') (h' : Kept c' c'') : Kept c c'' :=
  ⟨h'.err.trans h.err, h'.blocking.trans h.blocking, h'.reuseaddr.trans h.reuseaddr⟩

theorem kept_closeFd (c : SocketContext) : Kept c (redisContextCloseFd c) := by
  unfold redisContextCloseFd
  split <;> exact ⟨rfl, rfl, rfl⟩

variable {a : Calls} {c : SocketContext}

theorem bindSource_cases (a : Calls) (c : SocketContext) (source : Bool) :
    (a.bound source c.reuseaddr = true ∧
        (if source then bindSource a c else (.ok, c)) = (.ok, c)) ∨
      (a.bound source c.reuseaddr = false ∧
        ∃ c', (if source then bindSource a c else (.ok, c)) = (.err, c')) := by
  cases source with
  | false =>
      left
      cases h : a.sourceInfo <;> simp [Calls.bound, h]
  | true =>
      simp only [Calls.bound, bindSource, if_true, Bool.not_true, Bool.false_or]
      cases h : a.sourceInfo with
      | none => exact .inr ⟨rfl, _, rfl⟩
      | some binds =>
          dsimp only
          cases hany : binds.any id <;> cases hr : c.reuseaddr <;> cases ha : a.reuse <;> simp

/-- What the kind of a pass says of how it ends. -/
def Pass.Of (a : Calls) (c : SocketContext) (kind : Kind) : Pass → Prop
  | .next c' => kind = .next ∧ Kept c c'
  | .again c' => kind = .again ∧ Kept c c'
  | .error _ => kind = .stop
  | .done s c' => kind = .done ∧ Kept c c' ∧ c'.fd = s ∧ a.socket = some s

theorem afterConnect_of {s : ℕ} (hb : c.blocking = false) (hfd : c.fd = s)
    (hs : a.socket = some s) :
    (afterConnect a c s).Of a c (if a.nodelay then .done else .stop) := by
  cases hn : a.nodelay with
  | false => simp [afterConnect, hb, redisSetTcpNoDelay, hn, Pass.Of]
  | true =>
      simp only [afterConnect, hb, redisSetTcpNoDelay, hn, Bool.false_eq_true, if_false, if_true]
      exact ⟨rfl, ⟨rfl, hb.symm, rfl⟩, hfd, hs⟩

theorem connectSocket_of {s : ℕ} (hb : c.blocking = false) (hfd : c.fd = s)
    (hs : a.socket = some s) :
    (connectSocket a c s).Of a c
      (match a.connect with
      | .ok | .inProgress => if a.nodelay then .done else .stop
      | .hostUnreach => .next
      | .addrNotAvail => if c.reuseaddr then .again else .stop
      | .other => .stop) := by
  have hafter := afterConnect_of hb hfd hs
  unfold connectSocket
  cases hc : a.connect with
  | ok => simpa using hafter
  | inProgress => simpa [hb] using hafter
  | hostUnreach => simpa using ⟨rfl, kept_closeFd c⟩
  | addrNotAvail =>
      cases hr : c.reuseaddr with
      | true => simpa using ⟨rfl, rfl, rfl, rfl⟩
      | false => simp [redisContextWaitReady, hc, Pass.Of]
  | other => simp [redisContextWaitReady, hc, Pass.Of]

theorem Pass.Of.trans {c₀ : SocketContext} {kind : Kind} {p : Pass} (hc : Kept c₀ c)
    (h : p.Of a c kind) : p.Of a c₀ kind := by
  cases p with
  | next c' => exact ⟨h.1, hc.trans h.2⟩
  | again c' => exact ⟨h.1, hc.trans h.2⟩
  | error c' => exact h
  | done s c' => exact ⟨h.1, hc.trans h.2.1, h.2.2⟩

theorem pass_of (a : Calls) {c : SocketContext} (hb : c.blocking = false) (source : Bool) :
    (pass a c source).Of a c (a.kind source c.reuseaddr) := by
  unfold pass Calls.kind
  cases hs : a.socket with
  | none => exact ⟨rfl, rfl, rfl, rfl⟩
  | some s =>
      have hkept : Kept c { c with fd := s } := ⟨rfl, rfl, rfl⟩
      cases hn : a.nonblock with
      | false => simp [redisSetBlocking, Pass.Of]
      | true =>
          rcases bindSource_cases a { c with fd := s } source with ⟨hbound, heq⟩ | ⟨hbound, c', heq⟩
          · have hnext := connectSocket_of (c := { c with fd := s }) hb rfl hs
            simp only [redisSetBlocking, if_true, heq]
            simp only [Bool.true_and, hbound, reduceCtorEq, if_true, if_false]
            exact hnext.trans hkept
          · simp only [redisSetBlocking, if_true, heq]
            simp [hbound, Pass.Of]

/-! ## When a connection is made, over all the passes -/

/-- What the passes for one address say of all the attempts from the pass `k` on. -/
def Tried.Of (calls : ℕ → Calls) (kind : ℕ → Kind) (c : SocketContext) (retries k : ℕ) :
    Tried → Prop
  | .next retries' k' c' =>
      Kept c c' ∧ ∀ n, Succeeds kind (n + 1) retries k ↔ Succeeds kind n retries' k'
  | .error _ => ∀ n, ¬Succeeds kind n retries k
  | .done s c' =>
      Kept c c' ∧ c'.fd = s ∧ (∃ i, (calls i).socket = some s) ∧
        ∀ n, Succeeds kind (n + 1) retries k

theorem Tried.Of.before {calls : ℕ → Calls} {kind : ℕ → Kind} {c₀ : SocketContext}
    {retries retries₀ k k₀ : ℕ} {t : Tried} (h : t.Of calls kind c retries k) (hc : Kept c₀ c)
    (hshift : ∀ n, Succeeds kind n retries₀ k₀ ↔ Succeeds kind n retries k) :
    t.Of calls kind c₀ retries₀ k₀ := by
  cases t with
  | next retries' k' c' => exact ⟨hc.trans h.1, fun n ↦ (hshift (n + 1)).trans (h.2 n)⟩
  | error c' => exact fun n hn ↦ h n ((hshift n).mp hn)
  | done s c' =>
      exact ⟨hc.trans h.1, h.2.1, h.2.2.1, fun n ↦ (hshift (n + 1)).mpr (h.2.2.2 n)⟩

theorem tryAddress_of (calls : ℕ → Calls) (source : Bool) (retries k : ℕ) (c : SocketContext)
    (hb : c.blocking = false) :
    (tryAddress calls source retries k c).Of calls (kinds calls source c.reuseaddr)
      c retries k := by
  induction retries generalizing k c with
  | zero => exact fun n ↦ Attempts.not_succeeds_times
  | succ retries ih =>
      have hpass := pass_of (calls k) hb source
      unfold tryAddress
      generalize pass (calls k) c source = p at hpass ⊢
      cases p with
      | next c' =>
          exact ⟨hpass.2, fun n ↦ Attempts.succeeds_next hpass.1⟩
      | error c' => exact fun n ↦ Attempts.not_succeeds_stop hpass
      | done s c' =>
          obtain ⟨hkind, hkept, hfd, hsocket⟩ := hpass
          exact ⟨hkept, hfd, ⟨k, hsocket⟩, fun n ↦
            Attempts.succeeds_done hkind (Nat.succ_pos n) (Nat.succ_pos retries)⟩
      | again c' =>
          obtain ⟨hkind, hkept⟩ := hpass
          have hshift : ∀ n, Succeeds (kinds calls source c.reuseaddr) n (retries + 1) k ↔
              Succeeds (kinds calls source c.reuseaddr) n retries (k + 1) :=
            fun n ↦ Attempts.succeeds_again hkind
          dsimp only
          split_ifs with hlast
          · subst hlast
            exact fun n h ↦ Attempts.not_succeeds_times ((hshift n).mp h)
          · have hclosed := hkept.trans (kept_closeFd c')
            have hrest := ih (k + 1) _ (hclosed.blocking.trans hb)
            rw [hclosed.reuseaddr] at hrest
            exact hrest.before hclosed hshift

/-- A connection is made to one of the addresses that are found. -/
def World.Connects (w : World) (source reuse : Bool) : Prop :=
  ∃ n ∈ w.net.addresses,
    Succeeds (kinds w.net.calls source reuse) n connectRetries 0

/-- What the loop over the addresses says of all the attempts from the pass `k` on. -/
theorem tryAddresses_of (calls : ℕ → Calls) (source : Bool) (addresses retries k : ℕ)
    (c : SocketContext) (hb : c.blocking = false) :
    let r := tryAddresses calls source addresses retries k c
    (r.1 = .ok ↔
        Succeeds (kinds calls source c.reuseaddr) addresses retries k) ∧
      (r.1 = .ok → r.2.2.err = c.err ∧
        ∃ s, r.2.1 = some s ∧ r.2.2.fd = s ∧ ∃ i, (calls i).socket = some s) := by
  induction addresses generalizing retries k c with
  | zero =>
      refine ⟨iff_of_false (fun h ↦ ?_) Attempts.not_succeeds_candidates, fun h ↦ ?_⟩ <;> cases h
  | succ addresses ih =>
      have htried := tryAddress_of calls source retries k c hb
      unfold tryAddresses
      generalize tryAddress calls source retries k c = t at htried ⊢
      cases t with
      | next retries' k' c' =>
          obtain ⟨hkept, hshift⟩ := htried
          have hrest := ih retries' k' c' (hkept.blocking.trans hb)
          rw [hkept.reuseaddr, hkept.err] at hrest
          rw [hshift]
          exact hrest
      | error c' =>
          exact ⟨iff_of_false (fun h ↦ by cases h) (htried _), fun h ↦ by cases h⟩
      | done s c' =>
          obtain ⟨hkept, hfd, hsocket, hsucceeds⟩ := htried
          exact ⟨iff_of_true rfl (hsucceeds _), fun _ ↦ ⟨hkept.err, s, rfl, hfd, hsocket⟩⟩

theorem redisContextConnectBindTcp_of (w : World) (source : Bool) (c : SocketContext)
    (hb : c.blocking = false) :
    let r := redisContextConnectBindTcp w.net c source
    (r.1 = .ok ↔ w.Connects source c.reuseaddr) ∧
      (r.1 = .ok → r.2.2.err = c.err ∧
        ∃ s, r.2.1 = some s ∧ r.2.2.fd = s ∧ ∃ i, (w.net.calls i).socket = some s) := by
  unfold redisContextConnectBindTcp World.Connects
  cases w.net.addresses with
  | none => exact ⟨iff_of_false (fun h ↦ by cases h) (by simp), fun h ↦ by cases h⟩
  | some addresses =>
      have h := tryAddresses_of w.net.calls source addresses connectRetries 0 c hb
      simpa using h

/-! ## What is attached to the event loop -/

/-- What is meant to hold of the end of any of the functions: nothing is attached
to the event loop unless a socket was connected, and then it is this socket. -/
structure Proper {ρ : Type} (w : World) (IsError : ρ → Prop) (run : Run ρ) : Prop where
  events : ∀ e ∈ run.events, e.proc = .redisAeWriteEvent →
    ∃ s c, run.tcp = some (.ok, some s, c) ∧ e.fd = s
  connected : ∀ socket c, run.tcp = some (.ok, socket, c) → c.err = none ∧
    ∃ s, socket = some s ∧ c.fd = s ∧ ∃ i, (w.net.calls i).socket = some s
  refused : (∀ socket c, run.tcp ≠ some (.ok, socket, c)) → run.events = [] ∧ IsError run.ret

section

variable {ρ : Type} {w : World} {failed : ρ} (IsError : ρ → Prop)

theorem proper_none (h : IsError failed) : Proper w IsError ⟨none, [], failed⟩ where
  events _ he := by cases he
  connected _ _ heq := by cases heq
  refused _ := ⟨rfl, h⟩

theorem attachAsync_events (taskFd : ℕ) (status realloc : Bool) {c : SocketContext}
    {ac : AsyncContext} (h : redisAsyncInitialize realloc c = some ac) :
    (attachAsync taskFd status (redisAsyncCopyError ac)).2.2 =
      [⟨c.fd, .redisAeWriteEvent⟩, ⟨taskFd, .taskDeal⟩] := by
  unfold redisAsyncInitialize at h
  split_ifs at h
  cases h
  rfl

theorem establish_proper_iff (w : World) (source reuse : Bool) (failed : ρ)
    (h : IsError failed) (result : ℤ → AsyncContext → ρ) :
    Proper w IsError
        (establish w (redisContextConnectBindTcp w.net · source) reuse failed result) ↔
      (w.calloc = true → w.realloc = true → w.Connects source reuse) := by
  unfold establish redisContextInit
  cases hcalloc : w.calloc with
  | false => exact iff_of_true (proper_none IsError h) (by simp)
  | true =>
      have htcp := redisContextConnectBindTcp_of w source ⟨0, none, false, reuse, false⟩ rfl
      simp only [if_true]
      generalize redisContextConnectBindTcp w.net _ source = tcp at htcp ⊢
      obtain ⟨hiff, hok⟩ := htcp
      have hconnected : ∀ socket c, some tcp = some (.ok, socket, c) → c.err = none ∧
          ∃ s, socket = some s ∧ c.fd = s ∧ ∃ i, (w.net.calls i).socket = some s := by
        rintro socket c heq
        cases heq
        exact hok rfl
      cases hinit : redisAsyncInitialize w.realloc tcp.2.2 with
      | none =>
          have hrealloc : w.realloc ≠ true := by
            intro hrealloc
            rw [redisAsyncInitialize, if_pos hrealloc] at hinit
            cases hinit
          refine iff_of_true ⟨?_, hconnected, fun _ ↦ ⟨rfl, h⟩⟩ fun _ hr ↦ absurd hr hrealloc
          intro e he
          cases he
      | some ac =>
          have hrealloc : w.realloc = true := by
            by_contra hrealloc
            rw [redisAsyncInitialize, if_neg hrealloc] at hinit
            cases hinit
          have hevents := attachAsync_events w.taskFd w.status w.realloc hinit
          dsimp only
          rw [hevents]
          refine ⟨fun hproper _ _ ↦ ?_, fun hconnects ↦ ?_⟩
          · -- An event was registered, so the socket has to be connected.
            by_contra hnot
            have hrefused := hproper.refused fun socket c heq ↦ by
              cases heq
              exact hnot (hiff.mp rfl)
            exact List.cons_ne_nil _ _ hrefused.1
          · have hstatus := hiff.mpr (hconnects trivial hrealloc)
            obtain ⟨status, socket, c⟩ := tcp
            obtain rfl : status = .ok := hstatus
            obtain ⟨-, s, rfl, hfd, -⟩ := hok rfl
            refine ⟨?_, hconnected, fun hne ↦ absurd rfl (hne _ _)⟩
            intro e he hproc
            rcases List.mem_pair.mp he with rfl | rfl
            · exact ⟨s, c, rfl, hfd⟩
            · cases hproc

theorem connectWith_proper_iff (w : World) (source reuse : Bool) (ip : Option (List UInt8))
    (port : ℤ) :
    Proper w (· = none)
        (connectWith w (redisContextConnectBindTcp w.net · source) reuse ip port) ↔
      (connectable w ip port = true → w.calloc = true → w.realloc = true →
        w.Connects source reuse) := by
  unfold connectWith
  split_ifs with hargs
  · have hiff := establish_proper_iff (· = none) w source reuse none rfl
      fun ret ac ↦ if ret = 0 then some ac else none
    exact hiff.trans ⟨fun h _ ↦ h, fun h ↦ h hargs⟩
  · exact iff_of_true (proper_none _ rfl) fun h ↦ absurd h hargs

theorem reconnect_proper_iff (w : World) (xc : Bool) (result : ℤ → AsyncContext → ℤ) :
    Proper w (· ≠ 0)
        (if xc then establish w (redisContextConnectTcp w.net) false (-1) result
          else ⟨none, [], -1⟩) ↔
      (xc = true → w.calloc = true → w.realloc = true → w.Connects false false) := by
  split_ifs with hxc
  · have hiff := establish_proper_iff (· ≠ 0) w false false (-1) (by decide) result
    exact hiff.trans ⟨fun h _ ↦ h, fun h ↦ h hxc⟩
  · exact iff_of_true (proper_none _ (by decide)) fun h ↦ absurd h hxc

end

/-- What is attached is a connected socket exactly if nothing fails before that or a
connection was made. -/
theorem connecting_proper_iff (w : World) (ip : Option (List UInt8)) (port : ℤ)
    (source_addr : Option (List UInt8)) (xc : Bool) :
    (Proper w (· = none) (xRedisConnectNonBlockTimeOut w ip port) ↔
        (connectable w ip port = true → w.calloc = true → w.realloc = true →
          w.Connects false false)) ∧
      (Proper w (· = none) (xRedisConnectBindNonBlock w ip port source_addr) ↔
        (connectable w ip port = true → w.calloc = true → w.realloc = true →
          w.Connects source_addr.isSome false)) ∧
      (Proper w (· = none) (xRedisConnectBindNonBlockWithReuse w ip port source_addr) ↔
        (connectable w ip port = true → w.calloc = true → w.realloc = true →
          w.Connects source_addr.isSome true)) ∧
      (Proper w (· ≠ 0) (reconnectConnectNonBlock w xc) ↔
        (xc = true → w.calloc = true → w.realloc = true → w.Connects false false)) ∧
      (Proper w (· ≠ 0) (xRedisReconnectConnectNonBlock w xc) ↔
        (xc = true → w.calloc = true → w.realloc = true → w.Connects false false)) := by
  refine ⟨?_, ?_, ?_, ?_, ?_⟩
  · apply connectWith_proper_iff
  · apply connectWith_proper_iff
  · apply connectWith_proper_iff
  · apply reconnect_proper_iff
  · apply reconnect_proper_iff

/-- The address is `"127.0.0.1"`. -/
def localhost : List UInt8 := [49, 50, 55, 46, 48, 46, 48, 46, 49]

/-- The address is found, but no socket can be had. -/
def noSocket : World :=
  let calls : Calls := ⟨none, true, none, true, .ok, .ready, false, true, true⟩
  ⟨0, 7, true, true, ⟨some 1, none, fun _ ↦ calls⟩, false⟩

/-- The context is attached with the descriptor 0. -/
theorem noSocket_attached :
    ⟨0, .redisAeWriteEvent⟩ ∈
        (xRedisConnectNonBlockTimeOut noSocket (some localhost) 6379).events ∧
      ¬Proper noSocket (· = none)
        (xRedisConnectNonBlockTimeOut noSocket (some localhost) 6379) := by
  have hevents : (xRedisConnectNonBlockTimeOut noSocket (some localhost) 6379).events =
      [⟨0, .redisAeWriteEvent⟩, ⟨7, .taskDeal⟩] := by decide
  have htcp : (xRedisConnectNonBlockTimeOut noSocket (some localhost) 6379).tcp.map Prod.fst =
      some .err := by decide
  refine ⟨hevents ▸ List.mem_cons_self, fun hproper ↦ ?_⟩
  obtain ⟨s, c, hs, -⟩ := hproper.events _ (hevents ▸ List.mem_cons_self) rfl
  rw [hs] at htcp
  cases htcp

end Connect

end MuxHiredis
