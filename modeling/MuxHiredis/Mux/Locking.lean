import MuxHiredis.Lib.Locks
import MuxHiredis.Lib.Machine
import MuxHiredis.Mux.Client

/-!
# The locks of the client

The event loop, the reconnect thread and the callers of `xRedisConnect`,
`xRedisFree`, `xStopClient` and `__xRedisCommand` take `client.mutex`,
`client.reconn_mutex`, `async_free_mutex` and the `xc->mutex` of every context.
Every function is the list of its lock operations and of the acts on the lists
and statuses that decide which ones come next.
-/

namespace MuxHiredis

namespace Locking

open Locks

inductive Mutex where
  | client
  | reconn
  | asyncFree
  | xc (x : ℕ)
  deriving DecidableEq

inductive Thread where
  | loop
  | reconnect
  | user (i : ℕ)
  deriving DecidableEq

/-- A `redisAsyncContext`; `attached` says whether the event loop knows it. -/
structure Context where
  xc : ℕ
  status : ℤ
  attached : Bool
  connected : Bool
  torn : Bool
  deriving DecidableEq

/-- An `xRedisContext`.  `connected` says whether its status is
`REDIS_CONNECTED`, and `returned` whether `xRedisConnect` gave it to its caller. -/
structure XContext where
  made : Bool
  ctx : Option ℕ
  connected : Bool
  returned : Bool
  freed : Bool
  waitTimeReconn : ℕ
  remainWaitReconn : ℕ
  deriving DecidableEq

/-- What the threads share.  `next` is the next context to be made, `aeloop` says
whether `client.aeloop` is there, `running` and `reconnecting` whether the two
threads are. -/
structure Data where
  contexts : ℕ → Context
  xcs : ℕ → XContext
  next : ℕ
  reconnList : List ℕ
  freeAcList : List ℕ
  aeloop : Bool
  stopped : Bool
  running : Bool
  reconnecting : Bool

/-- What `__initMpClient` can create: the event loop, its thread and the reconnect
thread. -/
inductive Created where
  | all
  | noEventLoop
  | noLoop
  | noReconnect
  deriving DecidableEq

/-- What a thread does between its lock operations. -/
inductive Act where
  | connected (x : ℕ) (ok : Bool)
  | signal (x : ℕ)
  | disconnecting (x : ℕ)
  | testStatus (c : ℕ)
  | relist (x : ℕ)
  | testFreed (c : ℕ)
  | redisFree (c : ℕ)
  | nextFree
  | clearClient
  | nextReconn
  | dropXc (x : ℕ)
  | nextAc
  | visitAll
  | visit (nodes : List ℕ)
  | reconnectContext (x : ℕ)
  | attach (c : ℕ)
  | reconnected (x : ℕ)
  | reconnectDone (x : ℕ)
  | reconnectFailed (x : ℕ)
  | initMpClient (x : ℕ) (created : Created)
  | connectContext (x : ℕ)
  | connectResult (x : ℕ)
  | freeContext (x : ℕ)
  | unlist (x : ℕ)
  | freeXc (x : ℕ)
  | stop
  deriving DecidableEq

abbrev Code := List (Op Mutex Act)

/-! ## The functions -/

def connectedCallback (x : ℕ) (ok : Bool) : Code :=
  [.lock (.xc x), .act (.connected x ok), .act (.signal x), .unlock (.xc x)]

/-- `disconnectedCallback`, for an error. -/
def disconnectedCallback (x c : ℕ) : Code :=
  [.lock (.xc x), .act (.disconnecting x), .unlock (.xc x), .lock .client, .act (.testStatus c)]

/-- The end of `__redisAsyncFree`. -/
def asyncFreeEnd (c : ℕ) : Code := [.act (.testFreed c), .act (.redisFree c)]

/-- `xRedisAsyncFree`.  The disconnect callback is called with `REDIS_OK` and
takes no lock. -/
def xRedisAsyncFree (c : Option ℕ) : Code :=
  .lock .asyncFree :: (c.elim [] asyncFreeEnd ++ [.unlock .asyncFree])

/-- What `taskDeal` and `__xRedisCommand` do under the lock does not concern the
locks. -/
def taskDeal (x : ℕ) : Code := [.lock (.xc x), .unlock (.xc x)]

def xRedisCommand (x : ℕ) : Code := [.lock (.xc x), .unlock (.xc x)]

def freeAsyncContextDeal : Code := [.lock .client, .act .nextFree]

/-- `startAeLoop`, from the return of `aeMain`. -/
def startAeLoopEnd : Code := [.lock .client, .act .clearClient, .unlock .client]

def clearClient : Code :=
  [.lock .reconn, .act .nextReconn, .unlock .reconn, .lock .client, .act .nextAc, .unlock .client]

/-- One round of `reconnectDis`. -/
def reconnectDis : Code := [.lock .reconn, .act .visitAll]

/-- `__initAttachContext`. -/
def initAttachContext (c : ℕ) : Code := [.lock .client, .act (.attach c), .unlock .client]

/-- A visit of `reconnectDis` to an `xc` that need not wait, up to the point where
the new context is made. -/
def reconnect (x : ℕ) : Code := [.lock (.xc x), .act (.reconnectContext x)]

def xRedisConnect (x : ℕ) (created : Created) : Code :=
  [.lock .client, .act (.initMpClient x created)]

/-- `attachAsync`. -/
def attachAsync (x c : ℕ) : Code :=
  .lock (.xc x) :: (initAttachContext c ++ [.wait (.xc x), .act (.connectResult x)])

def xRedisFree (x : ℕ) : Code := [.lock .client, .act (.freeContext x)]

def xStopClient : Code := [.lock .client, .act .stop, .unlock .client]

/-! ## The acts -/

namespace Data

def setContext (d : Data) (c : ℕ) (context : Context) : Data :=
  { d with contexts := Function.update d.contexts c context }

def setXc (d : Data) (x : ℕ) (xc : XContext) : Data :=
  { d with xcs := Function.update d.xcs x xc }

/-- The new context of an `xc`. -/
def newContext (d : Data) (x : ℕ) (xc : XContext) : Data :=
  { (d.setContext d.next ⟨x, 0, false, false, false⟩).setXc x { xc with ctx := some d.next } with
    next := d.next + 1 }

def perform : Act → Data → Data
  | .connected x ok, d =>
      if ok then d.setXc x { d.xcs x with connected := true } else d
  | .disconnecting x, d => d.setXc x { d.xcs x with connected := false }
  | .relist x, d =>
      if x ∈ d.reconnList then d else { d with reconnList := d.reconnList ++ [x] }
  | .redisFree c, d => d.setContext c { d.contexts c with torn := true }
  | .nextFree, d | .nextAc, d => { d with freeAcList := d.freeAcList.tail }
  | .nextReconn, d => { d with reconnList := d.reconnList.tail }
  | .dropXc x, d => d.setXc x { d.xcs x with ctx := none, freed := true }
  | .visit (x :: _), d =>
      d.setXc x { d.xcs x with remainWaitReconn := (d.xcs x).remainWaitReconn - 1 }
  | .reconnectContext x, d => d.newContext x (d.xcs x)
  | .attach c, d => d.setContext c { d.contexts c with attached := true }
  | .reconnected x, d =>
      if (d.xcs x).connected then d else d.setXc x { d.xcs x with ctx := none }
  | .reconnectDone x, d =>
      { d.setXc x { d.xcs x with waitTimeReconn := 1, remainWaitReconn := 0 } with
        reconnList := d.reconnList.erase x }
  | .reconnectFailed x, d =>
      d.setXc x { d.xcs x with
        waitTimeReconn := 2 * (d.xcs x).waitTimeReconn
        remainWaitReconn := 2 * (d.xcs x).waitTimeReconn }
  | .initMpClient _ created, d =>
      if d.aeloop ∨ created = .noEventLoop then d
      else
        { d with
          aeloop := true
          running := created ≠ .noLoop
          reconnecting := created = .all
          stopped := created ≠ .all }
  | .connectContext x, d =>
      d.newContext x ⟨true, none, false, false, false, 1, 0⟩
  | .connectResult x, d => d.setXc x { d.xcs x with returned := (d.xcs x).connected }
  | .freeContext x, d =>
      match (d.xcs x).ctx with
      | none => d
      | some c =>
          { d.setContext c { d.contexts c with
              status := (d.contexts c).status + freedContext } with
            freeAcList := d.freeAcList ++ [c] }
  | .unlist x, d => { d with reconnList := d.reconnList.erase x }
  | .freeXc x, d => d.setXc x { d.xcs x with freed := true }
  | .stop, d => { d with stopped := d.stopped || d.aeloop }
  | .signal _, d | .testStatus _, d | .testFreed _, d | .clearClient, d | .visitAll, d
  | .visit [], d => d

def expand : Act → Data → Code
  | .testStatus c, d =>
      if (d.contexts c).status = freedContext then [.unlock .client]
      else
        let x := (d.contexts c).xc
        [.unlock .client, .lock .reconn, .act (.relist x), .unlock .reconn]
  | .testFreed c, d =>
      if (d.contexts c).status = freedContext then
        let x := (d.contexts c).xc
        [.lock (.xc x), .act (.signal x), .unlock (.xc x)]
      else []
  | .nextFree, d =>
      match d.freeAcList with
      | [] => [.unlock .client]
      | c :: _ => xRedisAsyncFree (some c) ++ [.act .nextFree]
  | .clearClient, _ => Locking.clearClient
  | .nextReconn, d =>
      match d.reconnList with
      | [] => []
      | x :: _ => xRedisAsyncFree (d.xcs x).ctx ++ [.act (.dropXc x), .act .nextReconn]
  | .nextAc, d =>
      match d.freeAcList with
      | [] => []
      | c :: _ => xRedisAsyncFree (some c) ++ [.act .nextAc]
  | .visitAll, d => [.act (.visit d.reconnList)]
  | .visit [], _ => [.unlock .reconn]
  | .visit (x :: nodes), d =>
      (if (d.xcs x).remainWaitReconn = 0 then reconnect x else []) ++ [.act (.visit nodes)]
  | .reconnectContext x, d =>
      initAttachContext d.next ++ [.wait (.xc x), .act (.reconnected x)]
  | .reconnected x, d =>
      [.unlock (.xc x),
        .act (if (d.xcs x).connected then .reconnectDone x else .reconnectFailed x)]
  | .initMpClient x created, d =>
      if d.aeloop ∨ created = .all then [.unlock .client, .act (.connectContext x)]
      else if created = .noEventLoop then [.unlock .client]
      else [.act .clearClient, .unlock .client]
  | .connectContext x, d => attachAsync x d.next
  | .connectResult x, d =>
      .unlock (.xc x) :: if (d.xcs x).connected then [] else [.act (.freeXc x)]
  | .freeContext x, d =>
      [.unlock .client, .lock .reconn, .act (.unlist x), .unlock .reconn] ++
        (if (d.xcs x).ctx.isSome then [.lock (.xc x), .wait (.xc x), .unlock (.xc x)] else []) ++
        [.act (.freeXc x)]
  | _, _ => []

end Data

def acts : Acts Mutex Act Data := ⟨Data.perform, Data.expand⟩

/-! ## The threads -/

abbrev State := Threads Thread Mutex Act Data

/-- What the event loop comes to next. -/
inductive Event where
  | establish (c : ℕ)
  | fail (c : ℕ)
  | lose (c : ℕ)
  | task (x : ℕ)
  | sleep
  | quit
  deriving DecidableEq

inductive Api where
  | connect (x : ℕ) (created : Created)
  | command (x : ℕ)
  | free (x : ℕ)
  | stop
  deriving DecidableEq

inductive Action where
  | event (e : Event)
  | round
  | user (i : ℕ) (f : Api)
  | run (t : Thread)
  deriving DecidableEq

/-- The event loop can have an event for the context. -/
def Data.Live (d : Data) (c : ℕ) : Prop :=
  (d.contexts c).attached = true ∧ (d.contexts c).torn = false

instance (d : Data) : DecidablePred d.Live := fun _ ↦ inferInstanceAs (Decidable (_ ∧ _))

/-- The event loop's next event, with what it runs for it. -/
def Data.event (d : Data) : Event → Option (Code × Data)
  | .establish c =>
      if d.Live c ∧ (d.contexts c).connected = false then
        some (connectedCallback (d.contexts c).xc true,
          d.setContext c { d.contexts c with connected := true })
      else none
  | .fail c =>
      if d.Live c ∧ (d.contexts c).connected = false then
        some (connectedCallback (d.contexts c).xc false ++ asyncFreeEnd c, d)
      else none
  | .lose c =>
      if d.Live c ∧ (d.contexts c).connected = true then
        some (disconnectedCallback (d.contexts c).xc c ++ asyncFreeEnd c, d)
      else none
  | .task x => if (d.xcs x).made then some (taskDeal x, d) else none
  | .sleep => some (freeAsyncContextDeal, d)
  | .quit => if d.stopped then some (startAeLoopEnd, d) else none

/-- A function that a user of the library calls.  Only a context that
`xRedisConnect` returned is used, and not after it was freed. -/
def Data.user (d : Data) : Api → Option (Code × Data)
  | .connect x created =>
      if (d.xcs x).made then none
      else some (xRedisConnect x created, d.setXc x { d.xcs x with made := true })
  | .command x =>
      if (d.xcs x).returned = true ∧ (d.xcs x).freed = false ∧ (d.xcs x).connected = true ∧
          d.stopped = false then
        some (xRedisCommand x, d)
      else none
  | .free x =>
      if (d.xcs x).returned = true ∧ (d.xcs x).freed = false then some (xRedisFree x, d)
      else none
  | .stop => some (xStopClient, d)

def begin (s : State) (t : Thread) (p : Code × Data) : Option State :=
  { s with data := p.2 }.call t p.1

def step (s : State) : Action → Option State
  | .event e => if s.data.running then (s.data.event e).bind (begin s .loop) else none
  | .round =>
      if s.data.reconnecting = true ∧ s.data.stopped = false then
        begin s .reconnect (reconnectDis, s.data)
      else none
  | .user i f => (s.data.user f).bind (begin s (.user i))
  | .run t => s.exec acts t

def fresh : State where
  owner := fun _ ↦ none
  code := fun _ ↦ []
  data :=
    { contexts := fun _ ↦ ⟨0, 0, false, false, false⟩
      xcs := fun _ ↦ ⟨false, none, false, false, false, 1, 0⟩
      next := 0
      reconnList := []
      freeAcList := []
      aeloop := false
      stopped := false
      running := false
      reconnecting := false }

def machine : Machine State Action := ⟨(· = fresh), step⟩

/-- Only the event loop signals. -/
def Signals (t : Thread) (_ : Mutex) : Prop := t = .loop

/-- A thread attaches a context of the `xc`: it holds `xc->mutex` and requests
`client.mutex`. -/
def Attaching (s : State) (x : ℕ) : Prop :=
  ∃ t ∈ s.owner (.xc x), s.requested t = some .client

instance (s : State) : DecidablePred (Attaching s) :=
  fun _ ↦ inferInstanceAs (Decidable (∃ t ∈ _, _ = _))

/-- The event loop frees a context of the `xc` in `freeAsyncContextDeal`: it holds
`client.mutex` and requests `xc->mutex`. -/
def Dealing (s : State) (x : ℕ) : Prop :=
  s.owner .client = some .loop ∧ s.requested .loop = some (.xc x)

instance (s : State) : DecidablePred (Dealing s) :=
  fun _ ↦ inferInstanceAs (Decidable (_ ∧ _))

/-- What a thread does not request.  The event loop does not come to the end of a
context in `freeAsyncContextDeal` while its `xc` is being attached, nor the other
way round, and it does not come to `client.reconn_mutex` while the reconnect
thread waits for a connect. -/
def Requestable (s : State) (t : Thread) : Mutex → Prop
  | .client => ∀ m ∈ s.requested .loop, s.owner m = some t → s.owner .client ≠ some .loop
  | .reconn => t = .loop → s.sleeping .reconnect = none
  | .xc x => t = .loop → s.owner .client = some .loop → ¬Attaching s x
  | .asyncFree => True

instance (s : State) (t : Thread) : DecidablePred (Requestable s t)
  | .client => inferInstanceAs (Decidable (∀ m ∈ _, _ → _ ≠ _))
  | .reconn => inferInstanceAs (Decidable (_ → _ = _))
  | .xc _ => inferInstanceAs (Decidable (_ → _ → ¬_))
  | .asyncFree => .isTrue trivial

/-- The condition on the next operation of a thread: nobody calls `clearClient`, a
thread requests what `Requestable` allows, and the reconnect thread does not begin to
wait for a connect while the event loop requests `client.reconn_mutex`. -/
def OrderlyOp (s : State) (t : Thread) : Code → Prop
  | .act a :: _ => a ≠ .clearClient
  | .lock m :: _ => Requestable s t m
  | .wait _ :: _ => t = .reconnect → s.requested .loop ≠ some .reconn
  | _ => True

instance (s : State) (t : Thread) : DecidablePred (OrderlyOp s t)
  | .act _ :: _ => inferInstanceAs (Decidable (_ ≠ _))
  | .lock m :: _ => inferInstanceAs (Decidable (Requestable s t m))
  | .wait _ :: _ => inferInstanceAs (Decidable (_ → _ ≠ _))
  | [] | .locking _ :: _ | .unlock _ :: _ | .waiting _ :: _ => .isTrue trivial

def Orderly (s : State) : Action → Prop
  | .run t => OrderlyOp s t (s.code t)
  | _ => True

instance (s : State) : DecidablePred (Orderly s)
  | .run t => inferInstanceAs (Decidable (OrderlyOp s t (s.code t)))
  | .event _ | .round | .user _ _ => .isTrue trivial

/-! ## The discipline -/

/-- The mutexes that a thread holds at once, the last taken first. -/
def Stack : Thread → List Mutex → Prop
  | _, [] => True
  | .loop, [.client] | .loop, [.reconn] | .loop, [.xc _] | .loop, [.asyncFree, .client]
  | .loop, [.xc _, .asyncFree, .client] => True
  | .reconnect, [.reconn] | .reconnect, [.xc _, .reconn] | .reconnect, [.client, .xc _, .reconn] =>
      True
  | .user _, [.client] | .user _, [.reconn] | .user _, [.xc _] | .user _, [.client, .xc _] => True
  | _, _ => False

/-- Where a thread waits for a signal, and what it holds meanwhile. -/
def Waits : Thread → Mutex → List Mutex → Prop
  | .reconnect, .xc _, [.reconn] | .user _, .xc _, [] => True
  | _, _, _ => False

/-- What a thread holds before and after an act with all that follows from it. -/
def ActsFrom (t : Thread) (held : List Mutex) : Act → List Mutex → Prop
  | .testStatus _, held' | .nextFree, held' => t = .loop ∧ held = [.client] ∧ held' = []
  | .testFreed _, held' =>
      t = .loop ∧ (held = [] ∨ held = [.asyncFree, .client]) ∧ held' = held
  | .visitAll, held' | .visit _, held' => t = .reconnect ∧ held = [.reconn] ∧ held' = []
  | .reconnectContext x, held' | .reconnected x, held' =>
      t = .reconnect ∧ held = [.xc x, .reconn] ∧ held' = [.reconn]
  | .initMpClient _ _, held' | .freeContext _, held' =>
      (∃ i, t = .user i) ∧ held = [.client] ∧ held' = []
  | .connectContext _, held' => (∃ i, t = .user i) ∧ held = [] ∧ held' = []
  | .connectResult x, held' => (∃ i, t = .user i) ∧ held = [.xc x] ∧ held' = []
  | .nextReconn, _ | .nextAc, _ => False
  | _, held' => held' = held

def discipline : Discipline Thread Mutex Act where
  stack := Stack
  waits := Waits
  acts := ActsFrom
  nodup := by
    intro t held h
    unfold Stack at h
    split at h <;> simp_all
  tail := by
    intro t m held h
    unfold Stack at h
    split at h <;> simp_all [Stack]

/-- The end of `__redisAsyncFree` gives the mutexes back that it takes. -/
theorem asyncFreeEnd_typed {held : List Mutex} (c : ℕ)
    (h : held = [] ∨ held = [.asyncFree, .client]) :
    discipline.Typed .loop held (asyncFreeEnd c) held :=
  ⟨held, ⟨rfl, h, rfl⟩, held, rfl, rfl⟩

theorem expand_typed {t : Thread} {held held' : List Mutex} {a : Act} (d : Data)
    (h : discipline.acts t held a held') (hclear : a ≠ .clearClient) :
    discipline.Typed t held (d.expand a) held' := by
  cases a with
  | testStatus c =>
      obtain ⟨rfl, rfl, rfl⟩ := h
      simp only [Data.expand]
      split
      · exact ⟨[], rfl, rfl⟩
      · exact ⟨[], rfl, trivial, _, rfl, [], rfl, rfl⟩
  | testFreed c =>
      obtain ⟨rfl, hheld, rfl⟩ := h
      simp only [Data.expand]
      split
      · refine ⟨?_, _, rfl, _, rfl, rfl⟩
        rcases hheld with rfl | rfl <;> trivial
      · rfl
  | nextFree =>
      obtain ⟨rfl, rfl, rfl⟩ := h
      simp only [Data.expand]
      split
      · exact ⟨[], rfl, rfl⟩
      · rename_i c rest hlist
        refine ⟨trivial, ?_⟩
        refine Discipline.Typed.append ?_ ⟨[], ⟨rfl, rfl, rfl⟩, rfl⟩
        exact (asyncFreeEnd_typed c (Or.inr rfl)).append ⟨_, rfl, rfl⟩
  | visitAll =>
      obtain ⟨rfl, rfl, rfl⟩ := h
      exact ⟨[], ⟨rfl, rfl, rfl⟩, rfl⟩
  | visit nodes =>
      obtain ⟨rfl, rfl, rfl⟩ := h
      cases nodes with
      | nil => exact ⟨[], rfl, rfl⟩
      | cons x nodes =>
          simp only [Data.expand]
          have hrest : discipline.Typed .reconnect [.reconn] [.act (.visit nodes)] [] :=
            ⟨[], ⟨rfl, rfl, rfl⟩, rfl⟩
          split
          · exact ⟨trivial, [.reconn], ⟨rfl, rfl, rfl⟩, hrest⟩
          · exact hrest
  | reconnectContext x =>
      obtain ⟨rfl, rfl, rfl⟩ := h
      exact ⟨trivial, _, rfl, _, rfl, _, rfl, trivial, _, ⟨rfl, rfl, rfl⟩, rfl⟩
  | reconnected x =>
      obtain ⟨rfl, rfl, rfl⟩ := h
      simp only [Data.expand]
      split <;> exact ⟨_, rfl, _, rfl, rfl⟩
  | initMpClient x created =>
      obtain ⟨⟨i, rfl⟩, rfl, rfl⟩ := h
      simp only [Data.expand]
      split
      · exact ⟨[], rfl, [], ⟨⟨i, rfl⟩, rfl, rfl⟩, rfl⟩
      · split
        · exact ⟨_, rfl, rfl⟩
        · exact ⟨_, rfl, _, rfl, rfl⟩
  | connectContext x =>
      obtain ⟨⟨i, rfl⟩, rfl, rfl⟩ := h
      exact ⟨trivial, trivial, _, rfl, _, rfl, _, rfl, trivial, _, ⟨⟨i, rfl⟩, rfl, rfl⟩, rfl⟩
  | connectResult x =>
      obtain ⟨⟨i, rfl⟩, rfl, rfl⟩ := h
      refine ⟨_, rfl, ?_⟩
      split
      · rfl
      · exact ⟨_, rfl, rfl⟩
  | freeContext x =>
      obtain ⟨⟨i, rfl⟩, rfl, rfl⟩ := h
      simp only [Data.expand]
      split
      · exact ⟨_, rfl, trivial, _, rfl, _, rfl, trivial, _, rfl, trivial, _, rfl, _, rfl, rfl⟩
      · exact ⟨_, rfl, trivial, _, rfl, _, rfl, _, rfl, rfl⟩
  | clearClient => exact absurd rfl hclear
  | nextReconn | nextAc => exact h.elim
  | _ =>
      obtain rfl := h
      rfl

/-- Every function that a thread starts with gives back what it takes. -/
theorem event_typed {d d' : Data} {e : Event} {p : Code} (h : d.event e = some (p, d')) :
    discipline.Typed .loop [] p [] := by
  have hconnected : ∀ x ok, discipline.Typed .loop [] (connectedCallback x ok) [] :=
    fun x ok ↦ ⟨trivial, _, rfl, _, rfl, _, rfl, rfl⟩
  cases e with
  | establish c =>
      simp only [Data.event, Option.ite_none_right_eq_some, Option.some.injEq, Prod.mk.injEq] at h
      obtain ⟨-, rfl, -⟩ := h
      exact hconnected _ _
  | fail c =>
      simp only [Data.event, Option.ite_none_right_eq_some, Option.some.injEq, Prod.mk.injEq] at h
      obtain ⟨-, rfl, -⟩ := h
      exact (hconnected _ _).append (asyncFreeEnd_typed c (Or.inl rfl))
  | lose c =>
      simp only [Data.event, Option.ite_none_right_eq_some, Option.some.injEq, Prod.mk.injEq] at h
      obtain ⟨-, rfl, -⟩ := h
      refine Discipline.Typed.append ?_ (asyncFreeEnd_typed c (Or.inl rfl))
      exact ⟨trivial, _, rfl, _, rfl, trivial, _, ⟨rfl, rfl, rfl⟩, rfl⟩
  | task x =>
      simp only [Data.event, Option.ite_none_right_eq_some, Option.some.injEq, Prod.mk.injEq] at h
      obtain ⟨-, rfl, -⟩ := h
      exact ⟨trivial, _, rfl, rfl⟩
  | sleep =>
      simp only [Data.event, Option.some.injEq, Prod.mk.injEq] at h
      obtain ⟨rfl, -⟩ := h
      exact ⟨trivial, _, ⟨rfl, rfl, rfl⟩, rfl⟩
  | quit =>
      simp only [Data.event, Option.ite_none_right_eq_some, Option.some.injEq, Prod.mk.injEq] at h
      obtain ⟨-, rfl, -⟩ := h
      exact ⟨trivial, _, rfl, _, rfl, rfl⟩

theorem user_typed {d d' : Data} {i : ℕ} {f : Api} {p : Code} (h : d.user f = some (p, d')) :
    discipline.Typed (.user i) [] p [] := by
  cases f with
  | connect x created =>
      simp only [Data.user, Option.ite_none_left_eq_some, Option.some.injEq, Prod.mk.injEq] at h
      obtain ⟨-, rfl, -⟩ := h
      exact ⟨trivial, _, ⟨⟨i, rfl⟩, rfl, rfl⟩, rfl⟩
  | command x =>
      simp only [Data.user, Option.ite_none_right_eq_some, Option.some.injEq, Prod.mk.injEq] at h
      obtain ⟨-, rfl, -⟩ := h
      exact ⟨trivial, _, rfl, rfl⟩
  | free x =>
      simp only [Data.user, Option.ite_none_right_eq_some, Option.some.injEq, Prod.mk.injEq] at h
      obtain ⟨-, rfl, -⟩ := h
      exact ⟨trivial, _, ⟨⟨i, rfl⟩, rfl, rfl⟩, rfl⟩
  | stop =>
      simp only [Data.user, Option.some.injEq, Prod.mk.injEq] at h
      obtain ⟨rfl, -⟩ := h
      exact ⟨trivial, _, rfl, _, rfl, rfl⟩

/-- The threads keep the discipline, and neither of the two cycles of two threads
that it leaves room for is there. -/
structure Peaceful (s : State) : Prop where
  kept : discipline.Kept s
  attach : ∀ x, Dealing s x → ¬Attaching s x
  reconn : s.requested .loop = some .reconn → s.sleeping .reconnect = none

variable {s s' : State} {t t' : Thread}

/-- The event loop waits for no signal. -/
theorem Peaceful.loop_awake (h : Peaceful s) : s.sleeping .loop = none := by
  by_contra hsome
  obtain ⟨m, hm⟩ := Option.ne_none_iff_exists'.mp hsome
  obtain ⟨held, hwaits⟩ := h.kept.sleeper hm
  simp [discipline, Waits] at hwaits

theorem Peaceful.run (h : Peaceful s) (horderly : Orderly s (.run t))
    (hstep : s.exec acts t = some s') : Peaceful s' := by
  have hacts : ∀ a p, s.code t = .act a :: p → ∀ held next, discipline.acts t held a next →
      discipline.Typed t held (acts.expand a s.data) next := by
    intro a p hcode held next ha
    apply expand_typed s.data ha
    simp only [Orderly, hcode] at horderly
    exact horderly
  have hother : ∀ {t'}, t' ≠ t → s'.requested t' = s.requested t' ∧
      s'.sleeping t' = s.sleeping t' := by
    intro t' hne
    simp only [Threads.requested, Threads.sleeping, Threads.exec_other hstep hne, and_self]
  have hblocked := h.kept.exec_blocked hacts hstep
  have hawake := h.loop_awake
  refine ⟨h.kept.exec hacts hstep, ?_, ?_⟩
  · rintro x ⟨hclient, hloop⟩ ⟨t', ht', hrequested⟩
    have hne : t' ≠ .loop := by
      rintro rfl
      simp [hloop] at hrequested
    by_cases htloop : t = .loop
    · -- The event loop moves.
      subst htloop
      rw [(hother hne).1] at hrequested
      rcases hblocked with ⟨hnone, -⟩ | ⟨m, p, hcode, howner, hm, -⟩ | ⟨m, p, -, hnone, -⟩ |
        ⟨m, hm, -⟩
      · simp [hnone] at hloop
      · obtain rfl : m = .xc x := Option.some.inj (hm.symm.trans hloop)
        rw [howner] at hclient ht'
        simp only [Orderly, hcode] at horderly
        exact horderly rfl hclient ⟨t', ht', hrequested⟩
      · simp [hnone] at hloop
      · simp [hawake] at hm
    rw [(hother (Ne.symm htloop)).1] at hloop
    by_cases ht : t' = t
    · -- The thread that attaches moves.
      subst ht
      rcases hblocked with ⟨hnone, -⟩ | ⟨m, p, hcode, howner, hm, -⟩ | ⟨m, p, -, hnone, -⟩ |
        ⟨m, hm, -, hm', -⟩
      · simp [hnone] at hrequested
      · obtain rfl : m = .client := Option.some.inj (hm.symm.trans hrequested)
        rw [howner] at hclient ht'
        simp only [Orderly, hcode] at horderly
        exact horderly (.xc x) hloop ht' hclient
      · simp [hnone] at hrequested
      · obtain rfl : m = .client := Option.some.inj (hm'.symm.trans hrequested)
        obtain ⟨held, hwaits⟩ := h.kept.sleeper hm
        cases t' <;> simp [discipline, Waits] at hwaits
    · rw [(hother ht).1] at hrequested
      have hclient' : s.owner .client = some .loop :=
        (Threads.exec_owner hstep hclient).resolve_right fun h ↦ htloop h.1.symm
      have ht'' : s.owner (.xc x) = some t' :=
        (Threads.exec_owner hstep ht').resolve_right fun h ↦ ht h.1
      exact h.attach x ⟨hclient', hloop⟩ ⟨t', ht'', hrequested⟩
  · intro hloop
    by_cases htloop : t = .loop
    · subst htloop
      rcases hblocked with ⟨hnone, -⟩ | ⟨m, p, hcode, -, hm, -⟩ | ⟨m, p, -, hnone, -⟩ | ⟨m, hm, -⟩
      · simp [hnone] at hloop
      · obtain rfl : m = .reconn := Option.some.inj (hm.symm.trans hloop)
        simp only [Orderly, hcode] at horderly
        rw [(hother (by simp)).2]
        exact horderly rfl
      · simp [hnone] at hloop
      · simp [hawake] at hm
    rw [(hother (Ne.symm htloop)).1] at hloop
    by_cases ht : t = .reconnect
    · subst ht
      rcases hblocked with ⟨-, hnone⟩ | ⟨m, p, -, -, -, hnone⟩ | ⟨m, p, hcode, -⟩ |
        ⟨m, -, -, -, hnone⟩
      · exact hnone
      · exact hnone
      · simp only [Orderly, hcode] at horderly
        exact absurd hloop (horderly rfl)
      · exact hnone
    · rw [(hother (Ne.symm ht)).2]
      exact h.reconn hloop

theorem Peaceful.begin (h : Peaceful s) {p : Code × Data} (hp : discipline.Typed t [] p.1 [])
    (hstep : Locking.begin s t p = some s') : Peaceful s' := by
  have hkept : discipline.Kept { s with data := p.2 } := h.kept
  have hkept' := hkept.call hp hstep
  unfold Locking.begin Threads.call at hstep
  rw [Option.ite_none_right_eq_some] at hstep
  obtain ⟨-, hstep⟩ := hstep
  obtain rfl := Option.some.inj hstep
  have hblocked : ∀ t', (({ s with data := p.2 } : State).goto t p.1).requested t' =
        (if t' = t then none else s.requested t') ∧
      (({ s with data := p.2 } : State).goto t p.1).sleeping t' =
        if t' = t then none else s.sleeping t' := by
    intro t'
    by_cases ht : t' = t
    · subst ht
      simpa [Threads.requested, Threads.sleeping, Threads.goto] using hp.quiet
    · simp [Threads.requested, Threads.sleeping, Threads.goto, ht]
  refine ⟨hkept', ?_, ?_⟩
  · rintro x ⟨hclient, hloop⟩ ⟨t', ht', hrequested⟩
    rw [(hblocked _).1] at hloop hrequested
    split at hloop
    · simp at hloop
    split at hrequested
    · simp at hrequested
    exact h.attach x ⟨hclient, hloop⟩ ⟨t', ht', hrequested⟩
  · intro hloop
    rw [(hblocked _).1] at hloop
    rw [(hblocked _).2]
    split at hloop
    · simp at hloop
    split
    · rfl
    · exact h.reconn hloop

theorem Peaceful.step (h : Peaceful s) {a : Action} (horderly : Orderly s a)
    (hstep : Locking.step s a = some s') : Peaceful s' := by
  cases a with
  | event e =>
      simp only [Locking.step, Option.ite_none_right_eq_some, Option.bind_eq_some_iff] at hstep
      obtain ⟨-, p, he, hstep⟩ := hstep
      exact h.begin (event_typed he) hstep
  | round =>
      simp only [Locking.step, Option.ite_none_right_eq_some] at hstep
      obtain ⟨-, hstep⟩ := hstep
      have hround : discipline.Typed .reconnect [] reconnectDis [] :=
        ⟨trivial, _, ⟨rfl, rfl, rfl⟩, rfl⟩
      exact h.begin hround hstep
  | user i f =>
      obtain ⟨p, hf, hstep⟩ := Option.bind_eq_some_iff.mp hstep
      exact h.begin (user_typed hf) hstep
  | run t => exact h.run horderly hstep

theorem fresh_peaceful : Peaceful fresh := by
  refine ⟨.initial (fun _ ↦ rfl) (fun _ ↦ rfl) fun t ↦ ?_, ?_, ?_⟩
  · cases t <;> trivial
  · rintro x ⟨hclient, -⟩
    simp [fresh] at hclient
  · exact fun _ ↦ rfl

/-! ## The order of the threads -/

/-- A number that decreases from a thread to the one that it waits for. -/
def rank (s : State) (t : Thread) : ℕ :=
  match t, s.requested t, s.sleeping t with
  | .loop, some (.xc _), _ => if s.owner .client = some .loop then 1 else 3
  | _, some .asyncFree, _ => 1
  | _, some .client, _ => 2
  | _, some (.xc _), _ => 3
  | .loop, some .reconn, _ => 4
  | _, none, some _ => 5
  | _, some .reconn, _ => 6
  | _, none, none => 0

theorem rank_of_awake (hrequested : s.requested t = none) (hsleeping : s.sleeping t = none) :
    rank s t = 0 := by
  unfold rank
  rw [hrequested, hsleeping]
  cases t <;> rfl

theorem rank_of_client (hrequested : s.requested t = some .client) : rank s t = 2 := by
  unfold rank
  rw [hrequested]
  cases t <;> rfl

theorem rank_of_xc {x : ℕ} (hrequested : s.requested t = some (.xc x)) :
    rank s t = if t = .loop ∧ s.owner .client = some .loop then 1 else 3 := by
  unfold rank
  rw [hrequested]
  cases t <;> simp

theorem rank_of_reconn (hrequested : s.requested t = some .reconn) :
    rank s t = if t = .loop then 4 else 6 := by
  unfold rank
  rw [hrequested]
  cases t <;> simp

theorem rank_of_sleeping {m : Mutex} (hsleeping : s.sleeping t = some m) : rank s t = 5 := by
  unfold rank
  rw [Threads.requested_of_sleeping hsleeping, hsleeping]
  cases t <;> rfl

theorem Peaceful.loop_rank (h : Peaceful s) : rank s .loop < 5 := by
  have hawake := h.loop_awake
  cases hreq : s.requested .loop with
  | none => simp [rank_of_awake hreq hawake]
  | some m =>
      cases m with
      | client => simp [rank_of_client hreq]
      | asyncFree => simp [rank, hreq]
      | xc x =>
          rw [rank_of_xc hreq]
          split <;> omega
      | reconn => simp [rank_of_reconn hreq]

/-- Who holds `client.mutex` waits for nobody but in `freeAsyncContextDeal`. -/
theorem Peaceful.client_holder (h : Peaceful s) (howner : s.owner .client = some t) :
    rank s t ≤ 1 := by
  obtain ⟨held, hmem, hstack, hrequested, hsleeping⟩ := h.kept.holder howner
  have hawake : s.sleeping t = none := by
    by_contra hsome
    obtain ⟨m, hm⟩ := Option.ne_none_iff_exists'.mp hsome
    have hwaits := hsleeping m hm
    simp only [discipline, Waits] at hwaits
    split at hwaits <;> simp_all
  cases hreq : s.requested t with
  | none => simp [rank_of_awake hreq hawake]
  | some m =>
      have hnext := hrequested m hreq
      simp only [discipline, Stack] at hnext
      split at hnext <;> simp_all [rank]

/-- Who holds an `xc->mutex` waits for nobody but in `__initAttachContext`. -/
theorem Peaceful.xc_holder (h : Peaceful s) {x : ℕ} (howner : s.owner (.xc x) = some t) :
    rank s t = 0 ∨ s.requested t = some .client := by
  obtain ⟨held, hmem, hstack, hrequested, hsleeping⟩ := h.kept.holder howner
  have hawake : s.sleeping t = none := by
    by_contra hsome
    obtain ⟨m, hm⟩ := Option.ne_none_iff_exists'.mp hsome
    have hwaits := hsleeping m hm
    simp only [discipline, Waits] at hwaits
    split at hwaits <;> simp_all
  cases hreq : s.requested t with
  | none => exact Or.inl (rank_of_awake hreq hawake)
  | some m =>
      right
      have hnext := hrequested m hreq
      simp only [discipline, Stack] at hnext
      split at hnext <;> simp_all

/-- Who holds `client.reconn_mutex` waits for a signal only while the event loop does
not wait for that mutex. -/
theorem Peaceful.reconn_holder (h : Peaceful s) (howner : s.owner .reconn = some t) :
    rank s t ≤ 5 ∧ (s.requested .loop = some .reconn → rank s t ≤ 3) := by
  obtain ⟨held, hmem, hstack, hrequested, hsleeping⟩ := h.kept.holder howner
  cases hreq : s.requested t with
  | none =>
      cases hsl : s.sleeping t with
      | none => simp [rank_of_awake hreq hsl]
      | some m =>
          have hwaits := hsleeping m hsl
          simp only [discipline, Waits] at hwaits
          have hreconn := h.reconn
          split at hwaits <;> simp_all [rank]
  | some m =>
      have hnext := hrequested m hreq
      simp only [discipline, Stack] at hnext
      split at hnext <;> simp_all [rank]

theorem Peaceful.rank_lt (h : Peaceful s) (hwaits : s.WaitsFor Signals t t') :
    rank s t' < rank s t := by
  rcases hwaits with ⟨m, hrequested, howner⟩ | ⟨m, hsleeping, hsignals⟩
  · cases m with
    | client =>
        rw [rank_of_client hrequested]
        have hle := h.client_holder howner
        omega
    | asyncFree =>
        obtain ⟨held, hstack⟩ := h.kept.requester hrequested
        obtain ⟨held', hmem, hstack', -⟩ := h.kept.holder howner
        have hloop : t = .loop := by
          simp only [discipline, Stack] at hstack
          split at hstack <;> simp_all
        have hloop' : t' = .loop := by
          simp only [discipline, Stack] at hstack'
          split at hstack' <;> simp_all
        rw [hloop'] at howner
        exact absurd howner (hloop ▸ h.kept.requested_ne hrequested)
    | xc x =>
        rw [rank_of_xc hrequested]
        rcases h.xc_holder howner with hzero | hclient
        · rw [hzero]
          split <;> omega
        · rw [rank_of_client hclient]
          split
          · rename_i hdealing
            obtain ⟨rfl, hdealing⟩ := hdealing
            exact absurd ⟨t', howner, hclient⟩ (h.attach x ⟨hdealing, hrequested⟩)
          · omega
    | reconn =>
        obtain ⟨hfive, hthree⟩ := h.reconn_holder howner
        rw [rank_of_reconn hrequested]
        split
        · rename_i hloop
          have hle := hthree (hloop ▸ hrequested)
          omega
        · omega
  · obtain rfl : t' = .loop := ((hsignals .loop).mp rfl).symm
    rw [rank_of_sleeping hsleeping]
    exact h.loop_rank

theorem Peaceful.deadlockFree (h : Peaceful s) : s.DeadlockFree Signals :=
  ⟨fun _ _ ↦ h.kept.requested_ne, Threads.no_cycle_of_rank (rank s) fun _ _ ↦ h.rank_lt⟩

/-- In every run in which nobody calls `clearClient` and the event loop and the
reconnect thread keep out of each other's way, nobody waits in a circle. -/
theorem orderly_deadlockFree (h : machine.Reach Orderly s) : s.DeadlockFree Signals := by
  have hpeaceful : Peaceful s := by
    refine h.invariant ?_ ?_
    · rintro s rfl
      exact fresh_peaceful
    · intro s a s' hs horderly hstep
      exact hs.step horderly hstep
  exact hpeaceful.deadlockFree

/-- A thread runs on. -/
def runs (t : Thread) (n : ℕ) : List Action := List.replicate n (.run t)

/-- A connection is made, lost, made again and freed. -/
theorem orderly_deadlockFree_life :
    ∃ s, machine.Reach Orderly s ∧ (s.data.xcs 0).freed = true ∧ s.DeadlockFree Signals := by
  obtain ⟨s, hrun, hfreed⟩ := machine.run_spec fresh
    ([.user 0 (.connect 0 .all)] ++ runs (.user 0) 12 ++ [.event (.establish 0)] ++ runs .loop 5 ++
      runs (.user 0) 4 ++ [.event (.lose 0)] ++ runs .loop 14 ++ [.round] ++ runs .reconnect 12 ++
      [.event (.establish 1)] ++ runs .loop 5 ++ runs .reconnect 7 ++ [.user 1 (.free 0)] ++
      runs (.user 1) 11 ++ [.event .sleep] ++ runs .loop 14 ++ runs (.user 1) 4)
    (fun s ↦ decide ((s.data.xcs 0).freed = true)) (by decide +kernel)
  have hreach : machine.Reach Orderly s := (Machine.Reach.start rfl).run (by decide +kernel) hrun
  exact ⟨s, hreach, of_decide_eq_true hfreed, orderly_deadlockFree hreach⟩

/-- `startAeLoop` calls `clearClient` with `client.mutex` locked. -/
theorem stopped_loop_deadlocks : ∃ s, machine.Reachable s ∧ ¬s.DeadlockFree Signals := by
  obtain ⟨s, hrun, hself⟩ := machine.run_spec fresh
    ([.user 0 (.connect 0 .all)] ++ runs (.user 0) 12 ++ [.user 1 .stop] ++ runs (.user 1) 4 ++
      [.event .quit] ++ runs .loop 8)
    (fun s ↦ decide (s.requested .loop = some .client ∧ s.owner .client = some .loop))
    (by decide +kernel)
  obtain ⟨hrequested, howner⟩ := of_decide_eq_true hself
  exact ⟨s, .run (.start rfl) hrun, fun h ↦ h.1 .loop .client hrequested howner⟩

theorem not_deadlockFree_of_pair (t t' : Thread) (hto : s.WaitsFor Signals t t')
    (hback : s.WaitsFor Signals t' t) : ¬s.DeadlockFree Signals :=
  fun h ↦ h.2 t (.tail (.single hto) hback)

/-- A connection is lost while the reconnect thread waits for another one to be
made again. -/
theorem loss_deadlocks : ∃ s, machine.Reachable s ∧ ¬s.DeadlockFree Signals := by
  obtain ⟨s, hrun, hpair⟩ := machine.run_spec fresh
    ([.user 0 (.connect 0 .all)] ++ runs (.user 0) 12 ++ [.event (.establish 0)] ++ runs .loop 5 ++
      [.user 1 (.connect 1 .all)] ++ runs (.user 1) 12 ++ [.event (.establish 1)] ++
      runs .loop 5 ++ [.event (.lose 0)] ++ runs .loop 14 ++ [.round] ++ runs .reconnect 12 ++
      [.event (.lose 1)] ++ runs .loop 9)
    (fun s ↦ decide (s.requested .loop = some .reconn ∧ s.owner .reconn = some .reconnect ∧
      s.sleeping .reconnect = some (.xc 0))) (by decide +kernel)
  obtain ⟨hrequested, howner, hsleeping⟩ := of_decide_eq_true hpair
  refine ⟨s, .run (.start rfl) hrun, not_deadlockFree_of_pair .loop .reconnect ?_ ?_⟩
  · exact Or.inl ⟨.reconn, hrequested, howner⟩
  · exact Or.inr ⟨.xc 0, hsleeping, fun _ ↦ Iff.rfl⟩

/-- A context is freed between the points where the reconnect thread makes it and
where it attaches it. -/
theorem deal_deadlocks : ∃ s, machine.Reachable s ∧ ¬s.DeadlockFree Signals := by
  obtain ⟨s, hrun, hpair⟩ := machine.run_spec fresh
    ([.user 0 (.connect 0 .all)] ++ runs (.user 0) 12 ++ [.event (.establish 0)] ++ runs .loop 5 ++
      runs (.user 0) 4 ++ [.event (.lose 0)] ++ runs .loop 14 ++ [.round] ++ runs .reconnect 7 ++
      [.user 1 (.free 0)] ++ runs (.user 1) 4 ++ [.event .sleep] ++ runs .loop 7 ++
      runs .reconnect 1)
    (fun s ↦ decide (s.requested .loop = some (.xc 0) ∧ s.owner (.xc 0) = some .reconnect ∧
      s.requested .reconnect = some .client ∧ s.owner .client = some .loop)) (by decide +kernel)
  obtain ⟨hloop, hxc, hreconnect, hclient⟩ := of_decide_eq_true hpair
  refine ⟨s, .run (.start rfl) hrun, not_deadlockFree_of_pair .loop .reconnect ?_ ?_⟩
  · exact Or.inl ⟨.xc 0, hloop, hxc⟩
  · exact Or.inl ⟨.client, hreconnect, hclient⟩

end Locking

end MuxHiredis
