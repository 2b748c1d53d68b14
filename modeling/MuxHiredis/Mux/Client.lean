import MuxHiredis.Lib.Machine
import Mathlib.Data.Int.Notation
import Mathlib.Data.List.Basic
import Mathlib.Logic.Function.Basic

/-!
# The client and its contexts

Connections come and go under an `xRedisContext`: the event loop completes and
loses them, the reconnect thread makes new ones, `xRedisFree` and `clearClient`
end them.  Three places hold a context: `xc->ctx`, `client.free_ac_list` and the
event loop.  A section under a lock is one step.
-/

namespace MuxHiredis

/-- A `redisAsyncContext`: its `xc` and `status`, whether its connect has
completed, whether `disconnectedCallback` ran for it with an error, and how often
`redisFree` was called for it. -/
structure Conn where
  made : Bool
  xc : ℕ
  status : ℤ
  connected : Bool
  lost : Bool
  torn : ℕ
  deriving DecidableEq

/-- How far `xRedisFree` came. -/
inductive Leaving where
  | no
  | queued
  | unlisted
  deriving DecidableEq

/-- An `xRedisContext`.  `connected` says whether its status is
`REDIS_CONNECTED`, and `connecting` whether the caller of `xRedisConnect` still
waits. -/
structure XContext where
  made : Bool
  ctx : Option ℕ
  connected : Bool
  connecting : Bool
  leaving : Leaving
  freed : Bool
  deriving DecidableEq

/-- The reconnect thread.  In an attempt it holds `client.reconn_mutex`, and
`xc->mutex` until it waits. -/
inductive ReconnectThread where
  | idle
  | creating (x : ℕ)
  | attaching (x c : ℕ)
  | waiting (x c : ℕ)
  | removing (x : ℕ)
  deriving DecidableEq

/-- The context whose mutex the thread holds between two steps. -/
def ReconnectThread.locks : ReconnectThread → Option ℕ
  | .creating x | .attaching x _ => some x
  | _ => none

/-- Where the event loop stands: in `disconnectedCallback` before its second and
its third section, in `__redisAsyncFree` before its end, or in `clearClient`. -/
inductive EventLoop where
  | idle
  | losing (c : ℕ)
  | listing (c : ℕ)
  | ending (c : ℕ)
  | clearingReconn
  | clearingFree
  | quit
  deriving DecidableEq

/-- The context that the event loop is taking down. -/
def EventLoop.target : EventLoop → Option ℕ
  | .losing c | .listing c | .ending c => some c
  | _ => none

structure Client where
  conns : ℕ → Conn
  xcs : ℕ → XContext
  reconnList : List ℕ
  freeAcList : List ℕ
  reconnect : ReconnectThread
  stopped : Bool
  loop : EventLoop

/-- `FREED_CONTEXT`. -/
def freedContext : ℤ := -1

def Conn.absent : Conn := ⟨false, 0, 0, false, false, 0⟩

/-- `redisAsyncInitialize`, for an `xRedisContext`. -/
def Conn.create (xc : ℕ) : Conn := ⟨true, xc, 0, false, false, 0⟩

def XContext.absent : XContext := ⟨false, none, false, false, .no, false⟩

namespace Client

inductive Action where
  | connect (x c : ℕ)
  | wake (x : ℕ)
  | reconnect (x : ℕ)
  | create (c : ℕ)
  | abandon
  | attach
  | resume
  | remove
  | establish (c : ℕ)
  | fail (c : ℕ)
  | lose (c : ℕ)
  | deal
  | loop
  | free (x : ℕ)
  | unlist (x : ℕ)
  | release (x : ℕ)
  | stop
  | clear
  deriving DecidableEq

def setConn (s : Client) (c : ℕ) (conn : Conn) : Client :=
  { s with conns := Function.update s.conns c conn }

def setXc (s : Client) (x : ℕ) (xc : XContext) : Client :=
  { s with xcs := Function.update s.xcs x xc }

/-- Nobody holds the context's `xc->mutex` between two steps. -/
def Unlocked (s : Client) (x : ℕ) : Prop := s.reconnect.locks ≠ some x

instance (s : Client) : DecidablePred s.Unlocked := fun _ ↦ inferInstanceAs (Decidable (_ ≠ _))

/-- `redisFree`.  What a freed context holds cannot be relied on, so that a second
teardown counts as well. -/
def tear (s : Client) (c : ℕ) : Client :=
  s.setConn c { s.conns c with torn := (s.conns c).torn + 1 }

/-- The end of `__redisAsyncFree`.  For a context that `xRedisFree` gave up it
signals under `xc->mutex` first. -/
def asyncFree (s : Client) (c : ℕ) : Option Client :=
  if (s.conns c).status = freedContext ∧ ¬s.Unlocked (s.conns c).xc then none else some (s.tear c)

/-- `xRedisConnect` makes both contexts and waits. -/
def connect (s : Client) (x c : ℕ) : Option Client :=
  if (s.xcs x).made = false ∧ (s.conns c).made = false then
    some ((s.setConn c (.create x)).setXc x ⟨true, some c, false, true, .no, false⟩)
  else none

/-- The caller's wait is over, by a signal or by its timeout: only the status
counts. -/
def wake (s : Client) (x : ℕ) : Option Client :=
  if (s.xcs x).connecting = true ∧ s.Unlocked x then
    some (s.setXc x
      { s.xcs x with connecting := false, freed := (s.xcs x).freed || !(s.xcs x).connected })
  else none

/-- `__xRedisReconnectConnectNonBlock` begins a new context, whatever became of the one
before.  What `redisContextInit` gives is not a `redisAsyncContext` yet. -/
def startReconnect (s : Client) (x : ℕ) : Option Client :=
  if x ∈ s.reconnList ∧ s.reconnect = .idle ∧ s.loop ≠ .clearingReconn then
    some { s.setXc x { s.xcs x with ctx := none } with reconnect := .creating x }
  else none

/-- `redisAsyncInitialize` has made the context. -/
def create (s : Client) (c : ℕ) : Option Client :=
  match s.reconnect with
  | .creating x =>
      if (s.conns c).made = false then
        some { (s.setConn c (.create x)).setXc x { s.xcs x with ctx := some c } with
          reconnect := .attaching x c }
      else none
  | _ => none

/-- There is no memory for it. -/
def abandon (s : Client) : Option Client :=
  match s.reconnect with
  | .creating _ => some { s with reconnect := .idle }
  | _ => none

/-- `attachAsyncNoLock` gives the new context to the event loop and waits. -/
def attach (s : Client) : Option Client :=
  match s.reconnect with
  | .attaching x c => some { s with reconnect := .waiting x c }
  | _ => none

/-- The reconnect thread's wait is over. -/
def resume (s : Client) : Option Client :=
  match s.reconnect with
  | .waiting x _ =>
      if (s.xcs x).connected then some { s with reconnect := .removing x }
      else some { s.setXc x { s.xcs x with ctx := none } with reconnect := .idle }
  | _ => none

/-- The attempt succeeded. -/
def remove (s : Client) : Option Client :=
  match s.reconnect with
  | .removing x => some { s with reconnect := .idle, reconnList := s.reconnList.erase x }
  | _ => none

/-- The event loop can have an event for the context. -/
def Live (s : Client) (c : ℕ) : Prop := (s.conns c).made = true ∧ (s.conns c).torn = 0

instance (s : Client) : DecidablePred s.Live := fun _ ↦ inferInstanceAs (Decidable (_ ∧ _))

/-- The event loop comes to the context's next event, whose callback takes
`xc->mutex`. -/
def Ready (s : Client) (c : ℕ) : Prop := s.loop = .idle ∧ s.Live c ∧ s.Unlocked (s.conns c).xc

instance (s : Client) : DecidablePred s.Ready :=
  fun _ ↦ inferInstanceAs (Decidable (_ ∧ _ ∧ _))

/-- A connect completes, and `connectedCallback` sets the status. -/
def establish (s : Client) (c : ℕ) : Option Client :=
  if s.Ready c ∧ (s.conns c).connected = false then
    some ((s.setConn c { s.conns c with connected := true }).setXc (s.conns c).xc
      { s.xcs (s.conns c).xc with connected := true })
  else none

/-- A connect fails; `connectedCallback` only signals. -/
def fail (s : Client) (c : ℕ) : Option Client :=
  if s.Ready c ∧ (s.conns c).connected = false then some { s with loop := .ending c } else none

/-- A connection is lost by an error, and the first section of
`disconnectedCallback` sets the status. -/
def lose (s : Client) (c : ℕ) : Option Client :=
  if s.Ready c ∧ (s.conns c).connected = true then
    some { (s.setConn c { s.conns c with lost := true }).setXc (s.conns c).xc
        { s.xcs (s.conns c).xc with connected := false } with loop := .losing c }
  else none

/-- `freeAsyncContextDeal` takes the first context to free. -/
def deal (s : Client) : Option Client :=
  match s.loop, s.freeAcList with
  | .idle, c :: rest => some { s with freeAcList := rest, loop := .ending c }
  | _, _ => none

/-- The event loop goes on in one of its functions. -/
def stepLoop (s : Client) : Option Client :=
  match s.loop with
  | .idle | .quit => none
  | .losing c =>
      if (s.conns c).status = freedContext then some { s with loop := .ending c }
      else some { s with loop := .listing c }
  | .listing c =>
      if s.reconnect = .idle then
        some { s with
          reconnList :=
            if (s.conns c).xc ∈ s.reconnList then s.reconnList
            else s.reconnList ++ [(s.conns c).xc]
          loop := .ending c }
      else none
  | .ending c => (s.asyncFree c).map fun s' ↦ { s' with loop := .idle }
  | .clearingReconn =>
      match s.reconnList with
      | [] => some { s with loop := .clearingFree }
      | x :: rest =>
          let clear (s' : Client) : Client :=
            { s'.setXc x { s.xcs x with ctx := none, freed := true } with reconnList := rest }
          match (s.xcs x).ctx with
          | none => some (clear s)
          | some c => (s.asyncFree c).map clear
  | .clearingFree =>
      match s.freeAcList with
      | [] => some { s with loop := .quit }
      | c :: rest => (s.asyncFree c).map fun s' ↦ { s' with freeAcList := rest }

/-- The first section of `xRedisFree`.  While `xc->ctx` is no `redisAsyncContext` there is no
status to write. -/
def free (s : Client) (x : ℕ) : Option Client :=
  if (s.xcs x).made = true ∧ (s.xcs x).freed = false ∧ (s.xcs x).connecting = false ∧
      (s.xcs x).leaving = .no ∧ s.loop ≠ .clearingFree ∧ s.loop ≠ .quit ∧
      s.reconnect ≠ .creating x then
    match (s.xcs x).ctx with
    | none => some (s.setXc x { s.xcs x with leaving := .queued })
    | some c =>
        some { (s.setConn c { s.conns c with status := (s.conns c).status + freedContext }).setXc x
            { s.xcs x with leaving := .queued } with freeAcList := s.freeAcList ++ [c] }
  else none

/-- The second section of `xRedisFree`. -/
def unlist (s : Client) (x : ℕ) : Option Client :=
  if (s.xcs x).leaving = .queued ∧ s.reconnect = .idle ∧ s.loop ≠ .clearingReconn then
    some { s.setXc x { s.xcs x with leaving := .unlisted } with
      reconnList := s.reconnList.erase x }
  else none

/-- The wait of `xRedisFree` is over. -/
def release (s : Client) (x : ℕ) : Option Client :=
  if (s.xcs x).leaving = .unlisted ∧ s.Unlocked x then
    some (s.setXc x { s.xcs x with freed := true })
  else none

/-- `startAeLoop` comes to `clearClient` once the event loop was stopped.  The
section under `client.mutex` is as if that lock were granted. -/
def clear (s : Client) : Option Client :=
  if s.loop = .idle ∧ s.stopped = true ∧ s.reconnect = .idle then
    some { s with loop := .clearingReconn }
  else none

def step (s : Client) : Action → Option Client
  | .connect x c => s.connect x c
  | .wake x => s.wake x
  | .reconnect x => s.startReconnect x
  | .create c => s.create c
  | .abandon => s.abandon
  | .attach => s.attach
  | .resume => s.resume
  | .remove => s.remove
  | .establish c => s.establish c
  | .fail c => s.fail c
  | .lose c => s.lose c
  | .deal => s.deal
  | .loop => s.stepLoop
  | .free x => s.free x
  | .unlist x => s.unlist x
  | .release x => s.release x
  | .stop => some { s with stopped := true }
  | .clear => s.clear

def fresh : Client where
  conns := fun _ ↦ .absent
  xcs := fun _ ↦ .absent
  reconnList := []
  freeAcList := []
  reconnect := .idle
  stopped := false
  loop := .idle

def machine : Machine Client Action := ⟨(· = fresh), step⟩

@[simp] theorem conns_setConn (s : Client) (c : ℕ) (conn : Conn) :
    (s.setConn c conn).conns = Function.update s.conns c conn := rfl

@[simp] theorem xcs_setConn (s : Client) (c : ℕ) (conn : Conn) :
    (s.setConn c conn).xcs = s.xcs := rfl

@[simp] theorem freeAcList_setConn (s : Client) (c : ℕ) (conn : Conn) :
    (s.setConn c conn).freeAcList = s.freeAcList := rfl

@[simp] theorem reconnect_setConn (s : Client) (c : ℕ) (conn : Conn) :
    (s.setConn c conn).reconnect = s.reconnect := rfl

@[simp] theorem loop_setConn (s : Client) (c : ℕ) (conn : Conn) :
    (s.setConn c conn).loop = s.loop := rfl

@[simp] theorem conns_setXc (s : Client) (x : ℕ) (xc : XContext) :
    (s.setXc x xc).conns = s.conns := rfl

@[simp] theorem xcs_setXc (s : Client) (x : ℕ) (xc : XContext) :
    (s.setXc x xc).xcs = Function.update s.xcs x xc := rfl

@[simp] theorem freeAcList_setXc (s : Client) (x : ℕ) (xc : XContext) :
    (s.setXc x xc).freeAcList = s.freeAcList := rfl

@[simp] theorem reconnect_setXc (s : Client) (x : ℕ) (xc : XContext) :
    (s.setXc x xc).reconnect = s.reconnect := rfl

@[simp] theorem loop_setXc (s : Client) (x : ℕ) (xc : XContext) :
    (s.setXc x xc).loop = s.loop := rfl

theorem asyncFree_eq {s s' : Client} {c : ℕ} (h : s.asyncFree c = some s') : s' = s.tear c := by
  unfold asyncFree at h
  split at h
  · simp at h
  · exact (Option.some.inj h).symm

/-- What a step in the event loop's functions does and what it checks. -/
inductive LoopStep (s : Client) : Client → Prop
  | lostFreed {c : ℕ} (hl : s.loop = .losing c) (hstatus : (s.conns c).status = freedContext) :
      s.LoopStep { s with loop := .ending c }
  | lost {c : ℕ} (hl : s.loop = .losing c) (hstatus : (s.conns c).status ≠ freedContext) :
      s.LoopStep { s with loop := .listing c }
  | list {c : ℕ} (hl : s.loop = .listing c) (hidle : s.reconnect = .idle) :
      s.LoopStep { s with
        reconnList :=
          if (s.conns c).xc ∈ s.reconnList then s.reconnList
          else s.reconnList ++ [(s.conns c).xc]
        loop := .ending c }
  | ended {c : ℕ} (hl : s.loop = .ending c) : s.LoopStep { s.tear c with loop := .idle }
  | clearedReconn (hl : s.loop = .clearingReconn) (hlist : s.reconnList = []) :
      s.LoopStep { s with loop := .clearingFree }
  | clearNone {x : ℕ} {rest : List ℕ} (hl : s.loop = .clearingReconn)
      (hlist : s.reconnList = x :: rest) (hctx : (s.xcs x).ctx = none) :
      s.LoopStep { s.setXc x { s.xcs x with ctx := none, freed := true } with reconnList := rest }
  | clearSome {x c : ℕ} {rest : List ℕ} (hl : s.loop = .clearingReconn)
      (hlist : s.reconnList = x :: rest) (hctx : (s.xcs x).ctx = some c) :
      s.LoopStep { (s.tear c).setXc x { s.xcs x with ctx := none, freed := true } with
        reconnList := rest }
  | clearedFree (hl : s.loop = .clearingFree) (hlist : s.freeAcList = []) :
      s.LoopStep { s with loop := .quit }
  | clearFree {c : ℕ} {rest : List ℕ} (hl : s.loop = .clearingFree)
      (hlist : s.freeAcList = c :: rest) :
      s.LoopStep { s.tear c with freeAcList := rest }

theorem loopStep_cases {s s' : Client} (h : s.stepLoop = some s') : s.LoopStep s' := by
  unfold stepLoop at h
  cases hl : s.loop with
  | idle => simp [hl] at h
  | quit => simp [hl] at h
  | losing c =>
      simp only [hl] at h
      split at h <;> rename_i hstatus
      · exact Option.some.inj h ▸ .lostFreed hl hstatus
      · exact Option.some.inj h ▸ .lost hl hstatus
  | listing c =>
      simp only [hl, Option.ite_none_right_eq_some, Option.some.injEq] at h
      obtain ⟨hidle, rfl⟩ := h
      exact .list hl hidle
  | ending c =>
      simp only [hl, Option.map_eq_some_iff] at h
      obtain ⟨s₁, hfree, rfl⟩ := h
      obtain rfl := asyncFree_eq hfree
      exact .ended hl
  | clearingReconn =>
      simp only [hl] at h
      split at h <;> rename_i hlist
      · exact Option.some.inj h ▸ .clearedReconn hl hlist
      · split at h <;> rename_i hctx
        · exact Option.some.inj h ▸ .clearNone hl hlist hctx
        · obtain ⟨s₁, hfree, rfl⟩ := Option.map_eq_some_iff.mp h
          obtain rfl := asyncFree_eq hfree
          exact .clearSome hl hlist hctx
  | clearingFree =>
      simp only [hl] at h
      split at h <;> rename_i hlist
      · exact Option.some.inj h ▸ .clearedFree hl hlist
      · obtain ⟨s₁, hfree, rfl⟩ := Option.map_eq_some_iff.mp h
        obtain rfl := asyncFree_eq hfree
        exact .clearFree hl hlist

/-- The event loop leaves the reconnect thread alone. -/
theorem stepLoop_reconnect {s s' : Client} (h : s.stepLoop = some s') :
    s'.reconnect = s.reconnect := by
  cases loopStep_cases h <;> rfl

/-- A step in the event loop's functions moves on, or it tears a context down, in
`__redisAsyncFree`, for `client.reconn_list` or for `client.free_ac_list`. -/
theorem stepLoop_cases {s s' : Client} (h : s.stepLoop = some s') :
    (s'.conns = s.conns ∧ s'.xcs = s.xcs ∧ s'.freeAcList = s.freeAcList ∧
        s'.loop.target = s.loop.target) ∨
      (∃ c, s.loop = .ending c ∧ s' = { s.tear c with loop := .idle }) ∨
      (∃ x rest s₁, s.loop = .clearingReconn ∧ s.reconnList = x :: rest ∧
        s' = { s₁.setXc x { s.xcs x with ctx := none, freed := true } with reconnList := rest } ∧
        ((s.xcs x).ctx = none ∧ s₁ = s ∨ ∃ c, (s.xcs x).ctx = some c ∧ s₁ = s.tear c)) ∨
      ∃ c rest, s.loop = .clearingFree ∧ s.freeAcList = c :: rest ∧
        s' = { s.tear c with freeAcList := rest } := by
  cases loopStep_cases h with
  | lostFreed hl hstatus => exact .inl ⟨rfl, rfl, rfl, by rw [hl]; rfl⟩
  | lost hl hstatus => exact .inl ⟨rfl, rfl, rfl, by rw [hl]; rfl⟩
  | list hl hidle => exact .inl ⟨rfl, rfl, rfl, by rw [hl]; rfl⟩
  | ended hl => exact .inr (.inl ⟨_, hl, rfl⟩)
  | clearedReconn hl hlist => exact .inl ⟨rfl, rfl, rfl, by rw [hl]; rfl⟩
  | clearNone hl hlist hctx =>
      exact .inr (.inr (.inl ⟨_, _, s, hl, hlist, rfl, .inl ⟨hctx, rfl⟩⟩))
  | clearSome hl hlist hctx =>
      exact .inr (.inr (.inl ⟨_, _, _, hl, hlist, rfl, .inr ⟨_, hctx, rfl⟩⟩))
  | clearedFree hl hlist => exact .inl ⟨rfl, rfl, rfl, by rw [hl]; rfl⟩
  | clearFree hl hlist => exact .inr (.inr (.inr ⟨_, _, hl, hlist, rfl⟩))

/-- What a step does and what it checks.  The steps in the event loop's functions
are left to `stepLoop_cases`. -/
inductive Step (s : Client) : Action → Client → Prop
  | connect {x c : ℕ} (hx : (s.xcs x).made = false) (hc : (s.conns c).made = false) :
      s.Step (.connect x c)
        ((s.setConn c (.create x)).setXc x ⟨true, some c, false, true, .no, false⟩)
  | wake {x : ℕ} (hwaits : (s.xcs x).connecting = true) (hunlocked : s.Unlocked x) :
      s.Step (.wake x)
        (s.setXc x { s.xcs x with
          connecting := false, freed := (s.xcs x).freed || !(s.xcs x).connected })
  | reconnect {x : ℕ} (hlist : x ∈ s.reconnList) (hidle : s.reconnect = .idle)
      (hloop : s.loop ≠ .clearingReconn) :
      s.Step (.reconnect x)
        { s.setXc x { s.xcs x with ctx := none } with reconnect := .creating x }
  | create {x c : ℕ} (hat : s.reconnect = .creating x) (hc : (s.conns c).made = false) :
      s.Step (.create c)
        { (s.setConn c (.create x)).setXc x { s.xcs x with ctx := some c } with
          reconnect := .attaching x c }
  | abandon {x : ℕ} (hat : s.reconnect = .creating x) :
      s.Step .abandon { s with reconnect := .idle }
  | attach {x c : ℕ} (hat : s.reconnect = .attaching x c) :
      s.Step .attach { s with reconnect := .waiting x c }
  | resumeUp {x c : ℕ} (hat : s.reconnect = .waiting x c) (hup : (s.xcs x).connected = true) :
      s.Step .resume { s with reconnect := .removing x }
  | resumeDown {x c : ℕ} (hat : s.reconnect = .waiting x c)
      (hdown : ¬(s.xcs x).connected = true) :
      s.Step .resume { s.setXc x { s.xcs x with ctx := none } with reconnect := .idle }
  | remove {x : ℕ} (hat : s.reconnect = .removing x) :
      s.Step .remove { s with reconnect := .idle, reconnList := s.reconnList.erase x }
  | establish {c : ℕ} (hready : s.Ready c) (hdown : (s.conns c).connected = false) :
      s.Step (.establish c)
        ((s.setConn c { s.conns c with connected := true }).setXc (s.conns c).xc
          { s.xcs (s.conns c).xc with connected := true })
  | fail {c : ℕ} (hready : s.Ready c) (hdown : (s.conns c).connected = false) :
      s.Step (.fail c) { s with loop := .ending c }
  | lose {c : ℕ} (hready : s.Ready c) (hup : (s.conns c).connected = true) :
      s.Step (.lose c)
        { (s.setConn c { s.conns c with lost := true }).setXc (s.conns c).xc
            { s.xcs (s.conns c).xc with connected := false } with loop := .losing c }
  | deal {c : ℕ} {rest : List ℕ} (hidle : s.loop = .idle) (hlist : s.freeAcList = c :: rest) :
      s.Step .deal { s with freeAcList := rest, loop := .ending c }
  | loop {s' : Client} (hloop : s.stepLoop = some s') : s.Step .loop s'
  | freeNone {x : ℕ} (hfree : (s.xcs x).made = true ∧ (s.xcs x).freed = false ∧
        (s.xcs x).connecting = false ∧ (s.xcs x).leaving = .no ∧ s.loop ≠ .clearingFree ∧
        s.loop ≠ .quit ∧ s.reconnect ≠ .creating x) (hctx : (s.xcs x).ctx = none) :
      s.Step (.free x) (s.setXc x { s.xcs x with leaving := .queued })
  | freeSome {x c : ℕ} (hfree : (s.xcs x).made = true ∧ (s.xcs x).freed = false ∧
        (s.xcs x).connecting = false ∧ (s.xcs x).leaving = .no ∧ s.loop ≠ .clearingFree ∧
        s.loop ≠ .quit ∧ s.reconnect ≠ .creating x) (hctx : (s.xcs x).ctx = some c) :
      s.Step (.free x)
        { (s.setConn c { s.conns c with status := (s.conns c).status + freedContext }).setXc x
            { s.xcs x with leaving := .queued } with freeAcList := s.freeAcList ++ [c] }
  | unlist {x : ℕ} (hqueued : (s.xcs x).leaving = .queued) (hidle : s.reconnect = .idle)
      (hloop : s.loop ≠ .clearingReconn) :
      s.Step (.unlist x)
        { s.setXc x { s.xcs x with leaving := .unlisted } with
          reconnList := s.reconnList.erase x }
  | release {x : ℕ} (hunlisted : (s.xcs x).leaving = .unlisted) (hunlocked : s.Unlocked x) :
      s.Step (.release x) (s.setXc x { s.xcs x with freed := true })
  | stop : s.Step .stop { s with stopped := true }
  | clear (hidle : s.loop = .idle) (hstopped : s.stopped = true)
      (hreconnect : s.reconnect = .idle) :
      s.Step .clear { s with loop := .clearingReconn }

theorem step_cases {s s' : Client} {a : Action} (h : s.step a = some s') : s.Step a s' := by
  cases a with
  | connect x c =>
      simp only [Client.step, connect, Option.ite_none_right_eq_some, Option.some.injEq] at h
      obtain ⟨⟨hx, hc⟩, rfl⟩ := h
      exact .connect hx hc
  | wake x =>
      simp only [Client.step, wake, Option.ite_none_right_eq_some, Option.some.injEq] at h
      obtain ⟨⟨hwaits, hunlocked⟩, rfl⟩ := h
      exact .wake hwaits hunlocked
  | reconnect x =>
      simp only [Client.step, startReconnect, Option.ite_none_right_eq_some,
        Option.some.injEq] at h
      obtain ⟨⟨hlist, hidle, hloop⟩, rfl⟩ := h
      exact .reconnect hlist hidle hloop
  | create c =>
      simp only [Client.step, create] at h
      split at h
      · rename_i hat
        obtain ⟨hc, rfl⟩ := by simpa only [Option.ite_none_right_eq_some, Option.some.injEq] using h
        exact .create hat hc
      · simp at h
  | abandon =>
      simp only [Client.step, abandon] at h
      split at h
      · rename_i hat
        exact Option.some.inj h ▸ .abandon hat
      · simp at h
  | attach =>
      simp only [Client.step, attach] at h
      split at h
      · rename_i hat
        exact Option.some.inj h ▸ .attach hat
      · simp at h
  | resume =>
      simp only [Client.step, resume] at h
      split at h
      · rename_i hat
        split at h <;> rename_i hup
        · exact Option.some.inj h ▸ .resumeUp hat hup
        · exact Option.some.inj h ▸ .resumeDown hat hup
      · simp at h
  | remove =>
      simp only [Client.step, remove] at h
      split at h
      · rename_i hat
        exact Option.some.inj h ▸ .remove hat
      · simp at h
  | establish c =>
      simp only [Client.step, establish, Option.ite_none_right_eq_some, Option.some.injEq] at h
      obtain ⟨⟨hready, hdown⟩, rfl⟩ := h
      exact .establish hready hdown
  | fail c =>
      simp only [Client.step, fail, Option.ite_none_right_eq_some, Option.some.injEq] at h
      obtain ⟨⟨hready, hdown⟩, rfl⟩ := h
      exact .fail hready hdown
  | lose c =>
      simp only [Client.step, lose, Option.ite_none_right_eq_some, Option.some.injEq] at h
      obtain ⟨⟨hready, hup⟩, rfl⟩ := h
      exact .lose hready hup
  | deal =>
      simp only [Client.step, deal] at h
      split at h
      · rename_i hidle hlist
        exact Option.some.inj h ▸ .deal hidle hlist
      · simp at h
  | loop => exact .loop h
  | free x =>
      simp only [Client.step, free, Option.ite_none_right_eq_some] at h
      obtain ⟨hfree, h⟩ := h
      split at h <;> rename_i hctx
      · exact Option.some.inj h ▸ .freeNone hfree hctx
      · exact Option.some.inj h ▸ .freeSome hfree hctx
  | unlist x =>
      simp only [Client.step, unlist, Option.ite_none_right_eq_some, Option.some.injEq] at h
      obtain ⟨⟨hqueued, hidle, hloop⟩, rfl⟩ := h
      exact .unlist hqueued hidle hloop
  | release x =>
      simp only [Client.step, release, Option.ite_none_right_eq_some, Option.some.injEq] at h
      obtain ⟨⟨hunlisted, hunlocked⟩, rfl⟩ := h
      exact .release hunlisted hunlocked
  | stop => exact Option.some.inj h ▸ .stop
  | clear =>
      simp only [Client.step, clear, Option.ite_none_right_eq_some, Option.some.injEq] at h
      obtain ⟨⟨hidle, hstopped, hreconnect⟩, rfl⟩ := h
      exact .clear hidle hstopped hreconnect

/-! ## Who owns a context -/

/-- What a change to one entry keeps of it is kept of every entry. -/
theorem update_kept {α : Type*} (kept : α → α → Prop) (hrefl : ∀ a, kept a a) {f : ℕ → α} {i : ℕ}
    {a : α} (h : kept (f i) a) (j : ℕ) : kept (f j) (Function.update f i a j) := by
  by_cases hj : j = i
  · subst hj
    rwa [Function.update_self]
  · rw [Function.update_of_ne hj]
    exact hrefl (f j)

/-- A context in `xc->ctx` was made for that `xc`. -/
def Owns (s : Client) : Prop :=
  ∀ x c, (s.xcs x).ctx = some c → (s.conns c).made = true ∧ (s.conns c).xc = x

theorem Owns.frame {s s' : Client} (h : s.Owns)
    (hconns : ∀ c, (s'.conns c).made = (s.conns c).made ∧ (s'.conns c).xc = (s.conns c).xc)
    (hxcs : ∀ x c, (s'.xcs x).ctx = some c → (s.xcs x).ctx = some c) : s'.Owns := by
  intro x c hc
  obtain ⟨hmade, hxc⟩ := h x c (hxcs x c hc)
  exact ⟨(hconns c).1.trans hmade, (hconns c).2.trans hxc⟩

theorem Owns.create {s s' : Client} (h : s.Owns) {x c : ℕ} {xc : XContext}
    (hmade : (s.conns c).made = false) (hctx : xc.ctx = some c)
    (hconns : s'.conns = Function.update s.conns c (.create x))
    (hxcs : s'.xcs = Function.update s.xcs x xc) : s'.Owns := by
  intro x' c' hc'
  by_cases hx : x' = x
  · subst hx
    rw [hxcs, Function.update_self, hctx] at hc'
    obtain rfl := Option.some.inj hc'
    simp [hconns, Conn.create]
  · rw [hxcs, Function.update_of_ne hx] at hc'
    have hne : c' ≠ c := by
      rintro rfl
      simp [(h x' c' hc').1] at hmade
    rw [hconns, Function.update_of_ne hne]
    exact h x' c' hc'

theorem Owns.frameConn {s s' : Client} (h : s.Owns) {c : ℕ} {conn : Conn}
    (hconns : s'.conns = Function.update s.conns c conn) (hmade : conn.made = (s.conns c).made)
    (hxc : conn.xc = (s.conns c).xc)
    (hxcs : ∀ x c, (s'.xcs x).ctx = some c → (s.xcs x).ctx = some c) : s'.Owns := by
  refine h.frame (fun c' ↦ ?_) hxcs
  rw [hconns]
  exact update_kept (fun a b : Conn ↦ b.made = a.made ∧ b.xc = a.xc) (fun _ ↦ ⟨rfl, rfl⟩)
    ⟨hmade, hxc⟩ c'

theorem ctx_update {xcs : ℕ → XContext} {x : ℕ} {xc : XContext}
    (h : xc.ctx = (xcs x).ctx ∨ xc.ctx = none) (x' c : ℕ)
    (hc : (Function.update xcs x xc x').ctx = some c) : (xcs x').ctx = some c := by
  refine update_kept (fun a b : XContext ↦ b.ctx = some c → a.ctx = some c) (fun _ ↦ id) ?_ x' hc
  intro hxc
  rcases h with h | h
  · exact h ▸ hxc
  · simp [h] at hxc

theorem Owns.step {s s' : Client} (h : s.Owns) {a : Action} (hstep : s.step a = some s') :
    s'.Owns := by
  cases step_cases hstep with
  | connect _ hmade =>
      exact h.create hmade rfl rfl rfl
  | reconnect =>
      exact h.frame (fun _ ↦ ⟨rfl, rfl⟩) (ctx_update (.inr rfl))
  | create _ hmade =>
      exact h.create hmade (by rfl) rfl rfl
  | abandon =>
      exact h
  | wake =>
      exact h.frame (fun _ ↦ ⟨rfl, rfl⟩) (ctx_update (.inl rfl))
  | attach =>
      exact h
  | resumeUp _ _ =>
      exact h
  | resumeDown _ _ =>
      exact h.frame (fun _ ↦ ⟨rfl, rfl⟩) (ctx_update (.inr rfl))
  | remove =>
      exact h
  | establish =>
      exact h.frameConn rfl rfl rfl (ctx_update (.inl rfl))
  | fail =>
      exact h
  | lose =>
      exact h.frameConn rfl rfl rfl (ctx_update (.inl rfl))
  | deal =>
      exact h
  | loop hloop =>
      obtain ⟨hconns, hxcs, _⟩ | ⟨c, _, rfl⟩ | ⟨x, rest, s₁, _, _, rfl, hs₁⟩ |
          ⟨c, rest, _, _, rfl⟩ :=
        stepLoop_cases hloop
      · exact h.frame (fun _ ↦ by simp [hconns]) fun _ _ hc ↦ by rwa [← hxcs]
      · exact h.frameConn rfl rfl rfl fun _ _ ↦ id
      · obtain ⟨_, rfl⟩ | ⟨c, _, rfl⟩ := hs₁
        · exact h.frame (fun _ ↦ ⟨rfl, rfl⟩) (ctx_update (.inr rfl))
        · exact h.frameConn rfl rfl rfl (ctx_update (.inr rfl))
      · exact h.frameConn rfl rfl rfl fun _ _ ↦ id
  | freeNone _ _ =>
      exact h.frame (fun _ ↦ ⟨rfl, rfl⟩) (ctx_update (.inl rfl))
  | freeSome _ _ =>
      exact h.frameConn rfl rfl rfl (ctx_update (.inl rfl))
  | unlist =>
      exact h.frame (fun _ ↦ ⟨rfl, rfl⟩) (ctx_update (.inl rfl))
  | release =>
      exact h.frame (fun _ ↦ ⟨rfl, rfl⟩) (ctx_update (.inl rfl))
  | stop =>
      exact h
  | clear =>
      exact h

theorem fresh_owns : fresh.Owns := by
  intro x c hc
  simp [fresh, XContext.absent] at hc

/-- The context's `xc` was freed or has another context. -/
def LetGo (s : Client) (c : ℕ) : Prop :=
  (s.xcs (s.conns c).xc).freed = true ∨ (s.xcs (s.conns c).xc).ctx ≠ some c

instance (s : Client) : DecidablePred s.LetGo := fun _ ↦ inferInstanceAs (Decidable (_ ∨ _))

theorem Owns.ctx_ne {s : Client} (h : s.Owns) {c : ℕ} (hlet : s.LetGo c) (x : ℕ)
    (hfreed : (s.xcs x).freed = false) : (s.xcs x).ctx ≠ some c := by
  intro hc
  obtain ⟨_, rfl⟩ := h x c hc
  rcases hlet with hlet | hlet
  · simp [hlet] at hfreed
  · exact hlet hc

end Client

end MuxHiredis
