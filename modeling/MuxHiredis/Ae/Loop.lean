import MuxHiredis.Ae.Files
import MuxHiredis.Ae.Timers

/-!
# The event loop

`aeProcessEvents` and `aeMain`.  A program says what each callback does to the loop
and what it returns, by the number of the callback, and what the clock shows, by the
number of the reading; callbacks do not call `aeProcessEvents`.
-/

namespace MuxHiredis

namespace Ae

/-- What a callback does. -/
inductive Op where
  | file (op : FileOp)
  | createTime (milliseconds : ℤ) (proc clientData : ℕ) (finalizerProc : Option ℕ) (oom : Bool)
  | deleteTime (id : ℤ)
  | stop
  | setBeforeSleep (proc : Option ℕ)
  | setAfterSleep (proc : Option ℕ)

/-- What the loop calls. -/
inductive Call where
  | sleep (proc : ℕ)
  | readable (fd proc clientData : ℕ) (mask : Mask)
  | writable (fd proc clientData : ℕ) (mask : Mask)
  | time (id : ℤ) (proc clientData : ℕ) (now : ℤ × ℤ)
  | finalizer (addr proc clientData : ℕ)
  deriving DecidableEq

/-- The time event that is called. -/
def Call.timeId : Call → Option ℤ
  | .time id _ _ _ => some id
  | .sleep _ | .readable _ _ _ _ | .writable _ _ _ _ | .finalizer _ _ _ => none

structure Program where
  ops : ℕ → List Op
  retval : ℕ → ℤ
  clock : ℕ → ℤ × ℤ

/-- `issued n` is the next identifier when the `n`th callback is called. -/
structure EventLoop where
  files : Files
  timers : Timers
  stop : Bool
  beforesleep : Option ℕ
  aftersleep : Option ℕ
  readings : ℕ
  polls : List ℤ
  calls : List Call
  issued : ℕ → ℤ

/-- The events that `epoll_wait` reports. -/
structure EpollEvents where
  epollin : Bool
  epollout : Bool
  epollerr : Bool
  epollhup : Bool
  deriving DecidableEq, Repr

def EpollEvents.mask (e : EpollEvents) : Mask :=
  (e.epollin, e.epollout || e.epollerr || e.epollhup)

structure Flags where
  fileEvents : Bool
  timeEvents : Bool
  dontWait : Bool
  callAfterSleep : Bool

/-- `AE_ALL_EVENTS|AE_CALL_AFTER_SLEEP` -/
def Flags.all : Flags := ⟨true, true, false, true⟩

namespace EventLoop

variable (P : Program)

def aeGetTime (s : EventLoop) : (ℤ × ℤ) × EventLoop :=
  (P.clock s.readings, { s with readings := s.readings + 1 })

def perform (s : EventLoop) : Op → Option EventLoop
  | .file op => some { s with files := s.files.perform op }
  | .createTime milliseconds proc clientData finalizerProc oom =>
      let (now, s) := if oom then ((0, 0), s) else s.aeGetTime P
      some { s with timers :=
        (s.timers.aeCreateTimeEvent now milliseconds proc clientData finalizerProc oom).2 }
  | .deleteTime id => (s.timers.aeDeleteTimeEvent id).map fun r ↦ { s with timers := r.2 }
  | .stop => some { s with stop := true }
  | .setBeforeSleep proc => some { s with beforesleep := proc }
  | .setAfterSleep proc => some { s with aftersleep := proc }

def record (c : Call) (s : EventLoop) : EventLoop :=
  { s with
    calls := s.calls ++ [c]
    issued := Function.update s.issued s.calls.length s.timers.timeEventNextId }

def callback (c : Call) (s : EventLoop) : Option EventLoop :=
  (P.ops s.calls.length).foldlM (perform P) (s.record c)

/-! ## File events -/

/-- The write handler of `fe`, unless the same procedure was just called. -/
def fireWritable (fd : ℕ) (mask : Mask) (rfired : Bool) (s : EventLoop) : Option EventLoop :=
  let fe := s.files.events fd
  if fe.mask ⊓ mask ⊓ aeWritable ≠ ⊥ then
    if rfired = false ∨ fe.wfileProc ≠ fe.rfileProc then
      s.callback P (.writable fd fe.wfileProc fe.clientData mask)
    else some s
  else some s

/-- The handlers of one fired event.  `fe` is a pointer, which does not follow when
the read handler has the events moved. -/
def fire (fd : ℕ) (mask : Mask) (s : EventLoop) : Option EventLoop :=
  if s.files.setsize ≤ fd then none
  else
    let fe := s.files.events fd
    if fe.mask ⊓ mask ⊓ aeReadable ≠ ⊥ then
      (s.callback P (.readable fd fe.rfileProc fe.clientData mask)).bind fun s' ↦
        if s'.files.block ≠ s.files.block then none else s'.fireWritable P fd mask true
    else s.fireWritable P fd mask false

/-- `numevents` rounds from the `j`th fired event on. -/
def dispatch : ℕ → ℕ → EventLoop → Option EventLoop
  | 0, _, s => some s
  | numevents + 1, j, s =>
      match s.files.fired[j]? with
      | none => none
      | some (fd, mask) => (s.fire P fd mask).bind (dispatch numevents (j + 1))

/-! ## Time events -/

/-- `prev->next = te->next`, or the head when there is no `prev`. -/
def unlink (prev next : Option ℕ) (t : Timers) : Option Timers :=
  match prev with
  | none => some { t with timeEventHead := next }
  | some p => (t.cells p).map fun te ↦ t.set p { te with next := next }

/-- The event is due, and is called. -/
def callTimer (a : ℕ) (te : TimeEvent) (now : ℤ × ℤ) (s : EventLoop) : Option EventLoop :=
  (s.callback P (.time te.id te.timeProc te.clientData now)).bind fun s' ↦
    (s'.timers.cells a).map fun te' ↦
      let retval := P.retval s.calls.length
      if retval ≠ aeNomore then
        let (now, s') := s'.aeGetTime P
        let when := aeAddMillisecondsToNow now retval
        { s' with timers := s'.timers.set a { te' with when_sec := when.1, when_ms := when.2 } }
      else { s' with timers := s'.timers.set a { te' with id := aeDeletedEventId } }

def callFinalizer (a : ℕ) (te : TimeEvent) (s : EventLoop) : Option EventLoop :=
  match te.finalizerProc with
  | none => some s
  | some proc => s.callback P (.finalizer a proc te.clientData)

/-- An event that was deleted is removed. -/
def reclaim (a : ℕ) (te : TimeEvent) (prev : Option ℕ) (s : EventLoop) : Option EventLoop :=
  (unlink prev te.next s.timers).bind fun timers ↦
    (callFinalizer P a te { s with timers := timers }).map fun s ↦
      { s with timers := { s.timers with cells := Function.update s.timers.cells a none } }

def due (te : TimeEvent) (now : ℤ × ℤ) : Prop :=
  te.when_sec < now.1 ∨ now.1 = te.when_sec ∧ te.when_ms ≤ now.2

instance (te : TimeEvent) (now : ℤ × ℤ) : Decidable (due te now) :=
  inferInstanceAs (Decidable (_ ∨ _ ∧ _))

/-- `while(te)`, bounded by the cells of the chain. -/
def timeLoop (maxId : ℤ) : ℕ → Option ℕ → Option ℕ → ℕ → EventLoop → Option (ℕ × EventLoop)
  | _, _, none, processed, s => some (processed, s)
  | 0, _, some _, _, _ => none
  | fuel + 1, prev, some a, processed, s =>
      match s.timers.cells a with
      | none => none
      | some te =>
          -- Remove events scheduled for deletion.
          if te.id = aeDeletedEventId then
            (s.reclaim P a te prev).bind (timeLoop maxId fuel prev te.next processed)
          else if maxId < te.id then timeLoop maxId fuel prev te.next processed s
          else
            let (now, s) := s.aeGetTime P
            if due te now then
              (s.callTimer P a te now).bind fun s ↦
                (s.timers.next a).bind fun next ↦
                  timeLoop maxId fuel (some a) next (processed + 1) s
            else timeLoop maxId fuel (some a) te.next processed s

def processTimeEvents (s : EventLoop) : Option (ℕ × EventLoop) :=
  let (now, s) := s.aeGetTime P
  let t := s.timers
  -- The system clock may have been set back.
  let reset := if now.1 < t.lastTime then t.resetAll t.allocated t.timeEventHead else some t
  reset.bind fun t ↦
    let t := { t with lastTime := now.1 }
    timeLoop P (t.timeEventNextId - 1) t.allocated none t.timeEventHead 0 { s with timers := t }

/-! ## The loop -/

/-- The timeout of `epoll_wait`, an `int`; -1 is to wait forever. -/
def pollTimeout (shortest : Option TimeEvent) (dontWait : Bool) (s : EventLoop) :
    ℤ × EventLoop :=
  match shortest with
  | some shortest =>
      let (now, s) := s.aeGetTime P
      let ms := (shortest.when_sec - now.1) * 1000 + shortest.when_ms - now.2
      (if 0 < ms then wrap32 ms else 0, s)
  | none => (if dontWait then 0 else -1, s)

/-- `aeApiPoll` of `ae_epoll.c`. -/
def aeApiPoll (timeout : ℤ) (ready : List (ℕ × EpollEvents)) (s : EventLoop) : EventLoop :=
  { s with
    polls := s.polls ++ [timeout]
    files := { s.files with fired := ready.map fun e ↦ (e.1, e.2.mask) } }

def callSleep (proc : Option ℕ) (s : EventLoop) : Option EventLoop :=
  match proc with
  | none => some s
  | some proc => s.callback P (.sleep proc)

/-- A call of `aeApiPoll`, and the handlers of the events that fired. -/
def pollOnce (flags : Flags) (ready : List (ℕ × EpollEvents)) (shortest : Option TimeEvent)
    (s : EventLoop) : Option (ℕ × EventLoop) :=
  let (timeout, s) := s.pollTimeout P shortest flags.dontWait
  let s := s.aeApiPoll timeout ready
  let woken := if flags.callAfterSleep then s.callSleep P s.aftersleep else some s
  (woken.bind (dispatch P ready.length 0)).map fun s ↦ (ready.length, s)

/-- The first part of `aeProcessEvents`. -/
def processFileEvents (flags : Flags) (ready : List (ℕ × EpollEvents)) (s : EventLoop) :
    Option (ℕ × EventLoop) :=
  let waits := flags.timeEvents = true ∧ flags.dontWait = false
  if s.files.maxfd ≠ -1 ∨ waits then
    (if waits then s.timers.aeSearchNearestTimer else some none).bind fun shortest ↦
      s.pollOnce P flags ready shortest
  else some (0, s)

/-- `aeProcessEvents`, with what the kernel reports when it polls. -/
def aeProcessEvents (flags : Flags) (ready : List (ℕ × EpollEvents)) (s : EventLoop) :
    Option (ℕ × EventLoop) :=
  -- Nothing to do? return ASAP
  if flags.timeEvents = false ∧ flags.fileEvents = false then some (0, s)
  else
    (s.processFileEvents P flags ready).bind fun (processed, s) ↦
      if flags.timeEvents then
        (s.processTimeEvents P).map fun (more, s) ↦ (processed + more, s)
      else some (processed, s)

/-- One round of `aeMain`. -/
def mainRound (ready : List (ℕ × EpollEvents)) (s : EventLoop) : Option EventLoop :=
  (s.callSleep P s.beforesleep).bind fun s ↦
    (s.aeProcessEvents P .all ready).map Prod.snd

/-- `while (!eventLoop->stop)`, as far as the kernel's reports go. -/
def mainLoop : List (List (ℕ × EpollEvents)) → EventLoop → Option EventLoop
  | [], s => some s
  | ready :: reports, s =>
      if s.stop then some s else (s.mainRound P ready).bind (mainLoop reports)

def aeMain (reports : List (List (ℕ × EpollEvents))) (s : EventLoop) : Option EventLoop :=
  mainLoop P reports { s with stop := false }

end EventLoop

/-! ## What callbacks can do -/

/-- The masks of new events are not `AE_NONE`. -/
def Op.Proper : Op → Prop
  | .file op => Files.Proper op
  | .createTime _ _ _ _ _ | .deleteTime _ | .stop | .setBeforeSleep _ | .setAfterSleep _ => True

/-- The operation creates a time event. -/
def Op.Creates : Op → Prop
  | .createTime _ _ _ _ _ => True
  | .file _ | .deleteTime _ | .stop | .setBeforeSleep _ | .setAfterSleep _ => False

instance : DecidablePred Op.Creates
  | .createTime _ _ _ _ _ => .isTrue trivial
  | .file _ | .deleteTime _ | .stop | .setBeforeSleep _ | .setAfterSleep _ => .isFalse id

/-- How many identifiers the operations use up. -/
def creations (ops : List Op) : ℤ := ops.countP fun op ↦ op.Creates

theorem creations_append (ops ops' : List Op) :
    creations (ops ++ ops') = creations ops + creations ops' := by
  rw [creations, List.countP_append, Nat.cast_add]
  rfl

theorem creations_cons (op : Op) (ops : List Op) :
    creations (op :: ops) = creations [op] + creations ops := creations_append [op] ops

theorem creations_nonneg (ops : List Op) : 0 ≤ creations ops := Int.natCast_nonneg _

theorem eq_of_singleton_eq {op op' : Op} {before after : List Op}
    (h : [op] = before ++ op' :: after) : op = op' ∧ before = [] := by
  cases before with
  | nil => exact ⟨(List.cons.inj h).1, rfl⟩
  | cons first before => exact absurd (List.cons.inj h).2.symm (by simp)

def Program.Proper (P : Program) : Prop := ∀ n, ∀ op ∈ P.ops n, op.Proper

/-- The clock shows less than 1000 milliseconds. -/
def Program.Clocked (P : Program) : Prop := ∀ k, (P.clock k).2 < 1000

/-- No event is set more than 999 milliseconds after its second. -/
def Timers.Early (t : Timers) : Prop := ∀ a te, t.cells a = some te → te.when_ms < 1000

theorem aeAddMillisecondsToNow_early {now : ℤ × ℤ} (h : now.2 < 1000) (milliseconds : ℤ) :
    (aeAddMillisecondsToNow now milliseconds).2 < 1000 := by
  have hmod : milliseconds.tmod 1000 < 1000 := Int.tmod_lt_of_pos milliseconds (by decide)
  unfold aeAddMillisecondsToNow
  dsimp only
  split_ifs <;> omega

namespace EventLoop

variable {P : Program} {s s' : EventLoop} {l added : List ℕ} {ops : List Op}

/-- Descriptors and time events are kept in order. -/
structure Good (s : EventLoop) (l : List ℕ) : Prop where
  tracked : s.files.Tracked
  watched : s.files.Watched
  chained : s.timers.Chained l

/-- What holds before and after some operations. -/
structure Advances (P : Program) (ops : List Op) (s s' : EventLoop) (l added : List ℕ) : Prop where
  good : s'.Good (added ++ l)
  evolves : s.timers.Evolves s'.timers added
  calls : s'.calls = s.calls
  issued : s'.issued = s.issued
  readings : s.readings ≤ s'.readings
  polls : s'.polls = s.polls
  stop : s'.stop = true ↔ s.stop = true ∨ .stop ∈ ops
  early : P.Clocked → s.timers.Early → s'.timers.Early
  unmarked : ∀ a te, s.timers.cells a = some te → .deleteTime te.id ∉ ops →
    s'.timers.cells a = some te
  nextId : s'.timers.timeEventNextId = s.timers.timeEventNextId + creations ops
  deleted : ∀ before after id, ops = before ++ .deleteTime id :: after → 0 ≤ id →
    id < s.timers.timeEventNextId + creations before → ¬s'.timers.Live (added ++ l) id
  quiet : (∀ op ∈ ops, ¬op.Creates) → added = []
  untouched : ∀ fd, (∀ op, .file op ∈ ops → ¬Files.Touches fd op) →
    s'.files.events fd = s.files.events fd
  fixed : (∀ setsize, .file (.resize setsize) ∉ ops) → s'.files.setsize = s.files.setsize ∧
    s'.files.block = s.files.block ∧ s'.files.fired = s.files.fired

theorem Advances.refl (P : Program) (h : s.Good l) : Advances P [] s s l [] where
  good := h
  evolves := .refl h.chained
  calls := rfl
  issued := rfl
  readings := le_refl _
  polls := rfl
  stop := (or_iff_left List.not_mem_nil).symm
  early _ h := h
  unmarked _ _ h _ := h
  nextId := (add_zero _).symm
  deleted before after id hops := by simp at hops
  quiet _ := rfl
  untouched _ _ := rfl
  fixed _ := ⟨rfl, rfl, rfl⟩

theorem Advances.trans {s₁ s₂ s₃ : EventLoop} {op : Op} {added₁ added₂ : List ℕ}
    (h : Advances P [op] s₁ s₂ l added₁) (h' : Advances P ops s₂ s₃ (added₁ ++ l) added₂) :
    Advances P (op :: ops) s₁ s₃ l (added₂ ++ added₁) where
  good := by
    rw [List.append_assoc]
    exact h'.good
  evolves := h.evolves.trans h'.evolves fun a ha ↦
    h.good.chained.lt_allocated (List.mem_append_left _ ha)
  calls := h'.calls.trans h.calls
  issued := h'.issued.trans h.issued
  readings := h.readings.trans h'.readings
  polls := h'.polls.trans h.polls
  stop := by
    rw [h'.stop, h.stop, List.mem_singleton, or_assoc]
    exact or_congr_right List.mem_cons.symm
  early hclock hearly := h'.early hclock (h.early hclock hearly)
  unmarked a te hte hnot := by
    apply h'.unmarked a te
    · exact h.unmarked a te hte fun hmem ↦ hnot (List.mem_singleton.mp hmem ▸ List.mem_cons_self)
    · exact fun hmem ↦ hnot (List.mem_cons_of_mem _ hmem)
  nextId := by rw [h'.nextId, h.nextId, creations_cons op ops, add_assoc]
  deleted before after id hops hlow hold := by
    rw [List.append_assoc]
    cases before with
    | nil =>
        obtain ⟨rfl, rfl⟩ := List.cons.inj hops
        have hold' : id < s₁.timers.timeEventNextId := hold.trans_eq (add_zero _)
        apply h'.evolves.not_live h.good.chained (hold'.trans_le h.evolves.nextId) (by omega)
        exact h.deleted [] [] id rfl hlow hold
    | cons first before =>
        obtain ⟨rfl, hrest⟩ := List.cons.inj hops
        apply h'.deleted before after id hrest hlow
        rwa [h.nextId, add_assoc, ← creations_cons]
  quiet hnot := by
    obtain ⟨hfirst, hrest⟩ := List.forall_mem_cons.mp hnot
    rw [h'.quiet hrest, h.quiet fun op hop ↦ List.mem_singleton.mp hop ▸ hfirst]
    rfl
  untouched fd hnot := by
    rw [h'.untouched fd fun op hop ↦ hnot op (List.mem_cons_of_mem _ hop)]
    exact h.untouched fd fun op hop ↦ hnot op (List.mem_singleton.mp hop ▸ List.mem_cons_self)
  fixed hnot := by
    obtain ⟨h₁, h₂, h₃⟩ := h'.fixed fun n hn ↦ hnot n (List.mem_cons_of_mem _ hn)
    rw [h₁, h₂, h₃]
    exact h.fixed fun n hn ↦ hnot n (List.mem_singleton.mp hn ▸ List.mem_cons_self)

/-- An operation on the descriptors. -/
theorem advances_file (h : s.Good l) {op : FileOp} (hop : Files.Proper op) :
    Advances P [.file op] s { s with files := s.files.perform op } l [] where
  good := ⟨h.tracked.step h.watched hop, h.watched.step h.tracked hop, h.chained⟩
  evolves := .refl h.chained
  calls := rfl
  issued := rfl
  readings := le_refl _
  polls := rfl
  stop := by simp
  early _ h := h
  unmarked _ _ h _ := h
  nextId := (add_zero _).symm
  deleted before after id hops := nomatch (eq_of_singleton_eq hops).1
  quiet _ := rfl
  untouched fd hnot := Files.events_untouched s.files (hnot op (List.mem_singleton_self _))
  fixed hnot := Files.size_kept s.files fun n hn ↦ hnot n (hn ▸ List.mem_singleton_self _)

/-- The time events change and the descriptors do not. -/
theorem advances_timers (h : s.Good l) {op : Op} {t : Timers} {readings : ℕ}
    (hevolves : s.timers.Evolves t added) (hchained : t.Chained (added ++ l))
    (hreadings : s.readings ≤ readings) (hstop : op ≠ .stop)
    (hearly : P.Clocked → s.timers.Early → t.Early)
    (hunmarked : ∀ a te, s.timers.cells a = some te → op ≠ .deleteTime te.id →
      t.cells a = some te)
    (hnextId : t.timeEventNextId = s.timers.timeEventNextId + creations [op])
    (hdeleted : ∀ id, op = .deleteTime id → 0 ≤ id → ¬t.Live (added ++ l) id)
    (hquiet : ¬op.Creates → added = []) :
    Advances P [op] s { s with timers := t, readings := readings } l added where
  good := ⟨h.tracked, h.watched, hchained⟩
  evolves := hevolves
  calls := rfl
  issued := rfl
  readings := hreadings
  polls := rfl
  stop := by
    rw [List.mem_singleton]
    exact (or_iff_left hstop.symm).symm
  early := hearly
  unmarked a te hte hnot := hunmarked a te hte fun heq ↦ hnot (heq ▸ List.mem_singleton_self _)
  nextId := hnextId
  deleted before after id hops hlow _ := hdeleted id (eq_of_singleton_eq hops).1 hlow
  quiet hnot := hquiet (hnot op (List.mem_singleton_self _))
  untouched _ _ := rfl
  fixed _ := ⟨rfl, rfl, rfl⟩

/-- Neither the time events nor the descriptors change. -/
theorem advances_other (h : s.Good l) {op : Op}
    (hdelete : ∀ id, op ≠ .deleteTime id) (hcreate : ¬op.Creates) (hfiles : s'.files = s.files)
    (htimers : s'.timers = s.timers) (hcalls : s'.calls = s.calls) (hissued : s'.issued = s.issued)
    (hreadings : s'.readings = s.readings) (hpolls : s'.polls = s.polls)
    (hstop : s'.stop = true ↔ s.stop = true ∨ op = .stop) : Advances P [op] s s' l [] where
  good := ⟨hfiles ▸ h.tracked, hfiles ▸ h.watched, htimers ▸ h.chained⟩
  evolves := by
    rw [htimers]
    exact .refl h.chained
  calls := hcalls
  issued := hissued
  readings := hreadings.ge
  polls := hpolls
  stop := by rw [hstop, List.mem_singleton, eq_comm (a := op)]
  early _ hearly := htimers ▸ hearly
  unmarked _ _ hte _ := htimers ▸ hte
  nextId := by
    rw [htimers, creations, List.countP_singleton, decide_eq_false hcreate]
    exact (add_zero _).symm
  deleted before after id hops := absurd (eq_of_singleton_eq hops).1 (hdelete id)
  quiet _ := rfl
  untouched _ _ := hfiles ▸ rfl
  fixed _ := ⟨hfiles ▸ rfl, hfiles ▸ rfl, hfiles ▸ rfl⟩

theorem createTime_advances (h : s.Good l) (milliseconds : ℤ) (proc clientData : ℕ)
    (finalizerProc : Option ℕ) (oom : Bool) :
    ∃ s' added,
      s.perform P (.createTime milliseconds proc clientData finalizerProc oom) = some s' ∧
        Advances P [.createTime milliseconds proc clientData finalizerProc oom] s s' l added := by
  cases oom with
  | true =>
      obtain ⟨added, hevolves, hchained⟩ := Timers.aeCreateTimeEvent_spec h.chained (0, 0)
        milliseconds proc clientData finalizerProc true
      refine ⟨_, added, rfl, ?_⟩
      refine advances_timers h hevolves hchained le_rfl nofun ?_ ?_ rfl nofun ?_
      · exact fun _ hearly ↦ hearly
      · exact fun _ _ hte _ ↦ hte
      · exact fun hnot ↦ absurd trivial hnot
  | false =>
      obtain ⟨added, hevolves, hchained⟩ := Timers.aeCreateTimeEvent_spec h.chained
        (P.clock s.readings) milliseconds proc clientData finalizerProc false
      refine ⟨_, added, rfl, ?_⟩
      refine advances_timers h hevolves hchained (Nat.le_succ _) nofun ?_ ?_ rfl nofun ?_
      · intro hclock hearly a te hte
        change (s.timers.push _).cells a = some te at hte
        rw [Timers.push_cells] at hte
        split_ifs at hte
        · rw [← Option.some.inj hte]
          exact aeAddMillisecondsToNow_early (hclock _) milliseconds
        · exact hearly a te hte
      · intro a te hte _
        have hold : a < s.timers.allocated := h.chained.fresh a (by rw [hte]; nofun)
        exact (Timers.push_old _ hold).trans hte
      · exact fun hnot ↦ absurd trivial hnot

theorem deleteTime_advances (h : s.Good l) (id : ℤ) :
    ∃ s' added, s.perform P (.deleteTime id) = some s' ∧
      Advances P [.deleteTime id] s s' l added := by
  obtain ⟨r, hr, hevolves, hchained, -, hdeleted, hothers⟩ :=
    Timers.aeDeleteTimeEvent_spec h.chained id
  refine ⟨{ s with timers := r.2 }, [], by rw [perform, hr]; rfl, ?_⟩
  have hnextId : r.2.timeEventNextId = s.timers.timeEventNextId + creations [.deleteTime id] :=
    (Timers.aeDeleteTimeEvent_nextId hr).trans (add_zero _).symm
  refine advances_timers h hevolves hchained le_rfl nofun ?_ ?_ hnextId ?_ ?_
  · intro _ hearly a te hte
    by_cases hcell : s.timers.cells a = none
    · have hfreed : ∀ b, s.timers.cells b = none → r.2.cells b = none := by
        intro b hb
        by_contra hsome
        by_cases hlt : b < s.timers.allocated
        · exact hsome (hevolves.freed b hlt hb)
        · cases hevolves.fresh b (not_lt.mp hlt) hsome
      rw [hfreed a hcell] at hte
      cases hte
    · obtain ⟨te₀, hte₀⟩ := Option.ne_none_iff_exists'.mp hcell
      rcases hevolves.kept a te₀ hte₀ with hkept | hkept
      · rw [← Option.some.inj (hkept.symm.trans hte)]
        exact hearly a te₀ hte₀
      · rw [← Option.some.inj (hkept.symm.trans hte)]
        exact hearly a te₀ hte₀
  · exact fun a te hte hne ↦ hothers a te hte fun heq ↦ hne (heq ▸ rfl)
  · rintro id' heq hlow
    obtain rfl := Op.deleteTime.inj heq
    exact hdeleted (by omega)
  · exact fun _ ↦ rfl

theorem perform_advances (P : Program) (h : s.Good l) {op : Op} (hop : op.Proper) :
    ∃ s' added, s.perform P op = some s' ∧ Advances P [op] s s' l added := by
  cases op with
  | file op => exact ⟨_, [], rfl, advances_file h hop⟩
  | createTime milliseconds proc clientData finalizerProc oom =>
      exact createTime_advances h milliseconds proc clientData finalizerProc oom
  | deleteTime id => exact deleteTime_advances h id
  | stop => exact ⟨_, [], rfl, advances_other h nofun id rfl rfl rfl rfl rfl rfl (by simp)⟩
  | setBeforeSleep proc =>
      exact ⟨_, [], rfl, advances_other h nofun id rfl rfl rfl rfl rfl rfl (by simp)⟩
  | setAfterSleep proc =>
      exact ⟨_, [], rfl, advances_other h nofun id rfl rfl rfl rfl rfl rfl (by simp)⟩

theorem foldlM_advances (P : Program) (h : s.Good l) (hops : ∀ op ∈ ops, op.Proper) :
    ∃ s' added, ops.foldlM (perform P) s = some s' ∧ Advances P ops s s' l added := by
  induction ops generalizing s l with
  | nil => exact ⟨s, [], rfl, .refl P h⟩
  | cons op ops ih =>
      obtain ⟨hop, hops⟩ := List.forall_mem_cons.mp hops
      obtain ⟨s₁, added₁, hperform, hfirst⟩ := perform_advances P h hop
      obtain ⟨s₂, added₂, hrest, hall⟩ := ih hfirst.good hops
      refine ⟨s₂, added₂ ++ added₁, ?_, hfirst.trans hall⟩
      rw [List.foldlM_cons, hperform]
      exact hrest

theorem callback_advances (h : s.Good l) (hP : P.Proper) (c : Call) :
    ∃ s' added, s.callback P c = some s' ∧
      Advances P (P.ops s.calls.length) (s.record c) s' l added := by
  have hrecord : (s.record c).Good l := ⟨h.tracked, h.watched, h.chained⟩
  exact foldlM_advances P hrecord (hP s.calls.length)

/-! ## Parts of a run -/

/-- From the `n`th call on the event is not called any more. -/
structure Gone (s : EventLoop) (l : List ℕ) (id : ℤ) (n : ℕ) : Prop where
  nonneg : 0 ≤ id
  old : id < s.timers.timeEventNextId
  dead : ¬s.timers.Live l id
  uncalled : ∀ m c, n ≤ m → s.calls[m]? = some c → c.timeId ≠ some id

/-- What holds before and after a part of a run: an event that is not there, or that a
callback deletes, is gone. -/
structure Continues (P : Program) (s s' : EventLoop) (l l' : List ℕ) : Prop where
  good : s'.Good l'
  calls : s.calls <+: s'.calls
  issued : ∀ n < s.calls.length, s'.issued n = s.issued n
  readings : s.readings ≤ s'.readings
  polls : s.polls <+: s'.polls
  early : P.Clocked → s.timers.Early → s'.timers.Early
  nextId : s.timers.timeEventNextId ≤ s'.timers.timeEventNextId
  allocated : s.timers.allocated ≤ s'.timers.allocated
  freed : ∀ a < s.timers.allocated, s.timers.cells a = none → s'.timers.cells a = none
  silent : ∀ id, 0 ≤ id → id < s.timers.timeEventNextId → ¬s.timers.Live l id →
    s'.Gone l' id s.calls.length
  gone : ∀ n before after id, s.calls.length ≤ n → n < s'.calls.length →
    P.ops n = before ++ .deleteTime id :: after → 0 ≤ id → id < s'.issued n + creations before →
    s'.Gone l' id (n + 1)

/-- A part of a run in which only callbacks are called. -/
structure Moves (P : Program) (s s' : EventLoop) (l l' : List ℕ) : Prop
    extends Continues P s s' l l' where
  stop : s'.stop = true ↔ s.stop = true ∨
    ∃ n, s.calls.length ≤ n ∧ n < s'.calls.length ∧ .stop ∈ P.ops n

theorem getElem?_of_continued {l₁ l₂ : List Call} (h : l₁ <+: l₂) {m : ℕ} (hm : m < l₁.length) :
    l₂[m]? = l₁[m]? := by
  obtain ⟨rest, rfl⟩ := h
  exact List.getElem?_append_left hm

theorem Gone.continues {id : ℤ} {n : ℕ} {l' : List ℕ} (h : s.Gone l id n)
    (hmoves : Continues P s s' l l') : s'.Gone l' id n where
  nonneg := h.nonneg
  old := h.old.trans_le hmoves.nextId
  dead := (hmoves.silent id h.nonneg h.old h.dead).dead
  uncalled m c hm hc := by
    by_cases hmid : m < s.calls.length
    · exact h.uncalled m c hm ((getElem?_of_continued hmoves.calls hmid).symm.trans hc)
    · exact (hmoves.silent id h.nonneg h.old h.dead).uncalled m c (not_lt.mp hmid) hc

theorem Continues.trans {s₁ s₂ s₃ : EventLoop} {l₁ l₂ l₃ : List ℕ} (h : Continues P s₁ s₂ l₁ l₂)
    (h' : Continues P s₂ s₃ l₂ l₃) : Continues P s₁ s₃ l₁ l₃ where
  good := h'.good
  calls := h.calls.trans h'.calls
  issued n hn := (h'.issued n (hn.trans_le h.calls.length_le)).trans (h.issued n hn)
  readings := h.readings.trans h'.readings
  polls := h.polls.trans h'.polls
  early hclock hearly := h'.early hclock (h.early hclock hearly)
  nextId := h.nextId.trans h'.nextId
  allocated := h.allocated.trans h'.allocated
  freed a ha hcell := h'.freed a (ha.trans_le h.allocated) (h.freed a ha hcell)
  silent id hlow hold hdead := (h.silent id hlow hold hdead).continues h'
  gone n before after id hn hn' hops hlow hid := by
    by_cases hmid : n < s₂.calls.length
    · rw [h'.issued n hmid] at hid
      exact (h.gone n before after id hn hmid hops hlow hid).continues h'
    · exact h'.gone n before after id (not_lt.mp hmid) hn' hops hlow hid

theorem Moves.trans {s₁ s₂ s₃ : EventLoop} {l₁ l₂ l₃ : List ℕ} (h : Moves P s₁ s₂ l₁ l₂)
    (h' : Moves P s₂ s₃ l₂ l₃) : Moves P s₁ s₃ l₁ l₃ where
  toContinues := h.toContinues.trans h'.toContinues
  stop := by
    have hle := h.calls.length_le
    have hle' := h'.calls.length_le
    rw [h'.stop, h.stop, or_assoc]
    apply or_congr_right
    constructor
    · rintro (⟨n, hn, hn', hop⟩ | ⟨n, hn, hn', hop⟩)
      · exact ⟨n, hn, hn'.trans_le hle', hop⟩
      · exact ⟨n, hle.trans hn, hn', hop⟩
    · rintro ⟨n, hn, hn', hop⟩
      by_cases hmid : n < s₂.calls.length
      · exact Or.inl ⟨n, hn, hmid, hop⟩
      · exact Or.inr ⟨n, not_lt.mp hmid, hn', hop⟩

/-- Nothing is called, and no event comes back to life. -/
structure Quiet (P : Program) (s s' : EventLoop) (l l' : List ℕ) : Prop where
  calls : s'.calls = s.calls
  issued : s'.issued = s.issued
  readings : s.readings ≤ s'.readings
  polls : s.polls <+: s'.polls
  stop : s'.stop = s.stop
  early : P.Clocked → s.timers.Early → s'.timers.Early
  nextId : s'.timers.timeEventNextId = s.timers.timeEventNextId
  allocated : s'.timers.allocated = s.timers.allocated
  freed : ∀ a, s.timers.cells a = none → s'.timers.cells a = none
  live : ∀ id, 0 ≤ id → s'.timers.Live l' id → s.timers.Live l id

theorem Quiet.moves {l' : List ℕ} (h : Quiet P s s' l l') (hgood : s'.Good l') :
    Moves P s s' l l' where
  good := hgood
  calls := h.calls ▸ List.prefix_rfl
  issued n _ := congrFun h.issued n
  readings := h.readings
  polls := h.polls
  early := h.early
  nextId := h.nextId.ge
  allocated := h.allocated.ge
  freed a _ := h.freed a
  silent id hlow hold hdead := by
    refine ⟨hlow, h.nextId ▸ hold, fun hlive ↦ hdead (h.live id hlow hlive), fun m c hm hc ↦ ?_⟩
    rw [h.calls, List.getElem?_eq_none hm] at hc
    cases hc
  gone n _ _ _ hn hn' := by
    rw [h.calls] at hn'
    omega
  stop := by
    rw [h.stop, h.calls]
    refine (or_iff_left ?_).symm
    rintro ⟨n, hn, hn', -⟩
    omega

theorem Quiet.refl (P : Program) (s : EventLoop) (l : List ℕ) : Quiet P s s l l :=
  ⟨rfl, rfl, le_rfl, List.prefix_rfl, rfl, fun _ h ↦ h, rfl, rfl, fun _ h ↦ h, fun _ _ h ↦ h⟩

theorem Moves.refl (h : s.Good l) : Moves P s s l l := (Quiet.refl P s l).moves h

/-- A callback that runs. -/
theorem Advances.moves {c : Call} (h : Advances P (P.ops s.calls.length) (s.record c) s' l added)
    (hgood : s.Good l) (hc : ∀ id, c.timeId = some id → s.timers.Live l id) :
    Moves P s s' l (added ++ l) := by
  have hcalls : s'.calls = s.calls ++ [c] := h.calls
  have hlength : s'.calls.length = s.calls.length + 1 := by
    rw [hcalls, List.length_append, List.length_singleton]
  have honly : ∀ m c', s.calls.length ≤ m → s'.calls[m]? = some c' →
      m = s.calls.length ∧ c' = c := by
    intro m c' hm hc'
    rw [hcalls, List.getElem?_append_right hm, List.getElem?_singleton] at hc'
    split_ifs at hc' with hzero
    exact ⟨by omega, (Option.some.inj hc').symm⟩
  refine ⟨⟨h.good, ⟨[c], h.calls.symm⟩, fun n hn ↦ ?_, h.readings,
    h.polls ▸ List.prefix_rfl, h.early, h.evolves.nextId, h.evolves.allocated, h.evolves.freed,
    fun id hlow hold hdead ↦ ?_, fun n before after id hn hn' hops hlow hid ↦ ?_⟩, ?_⟩
  · rw [h.issued]
    exact Function.update_of_ne hn.ne ..
  · refine ⟨hlow, hold.trans_le h.evolves.nextId,
      h.evolves.not_live hgood.chained hold (by omega) hdead, fun m c' hm hc' hid ↦ ?_⟩
    obtain ⟨-, rfl⟩ := honly m c' hm hc'
    exact hdead (hc id hid)
  · obtain rfl : n = s.calls.length := by omega
    have hissued : s'.issued s.calls.length = s.timers.timeEventNextId := by
      rw [h.issued]
      exact Function.update_self ..
    rw [hissued] at hid
    have hold : id < s'.timers.timeEventNextId := by
      have hnextId : s'.timers.timeEventNextId = _ + _ := h.nextId
      have hafter := creations_nonneg after
      rw [hnextId, hops, creations_append, creations_cons]
      change id < s.timers.timeEventNextId + (creations before + (0 + creations after))
      omega
    refine ⟨hlow, hold, h.deleted before after id hops hlow hid, fun m c' hm hc' ↦ ?_⟩
    obtain ⟨rfl, -⟩ := honly m c' (Nat.le_of_succ_le hm) hc'
    omega
  · rw [h.stop]
    refine or_congr_right ⟨fun hop ↦ ⟨_, le_rfl, hlength ▸ Nat.lt_succ_self _, hop⟩, ?_⟩
    rintro ⟨n, hn, hn', hop⟩
    obtain rfl : n = s.calls.length := by omega
    exact hop

/-- An operation between callbacks. -/
theorem Advances.continues {op : Op} (h : Advances P [op] s s' l added) (hgood : s.Good l) :
    Continues P s s' l (added ++ l) where
  good := h.good
  calls := h.calls ▸ List.prefix_rfl
  issued _ _ := congrFun h.issued _
  readings := h.readings
  polls := h.polls ▸ List.prefix_rfl
  early := h.early
  nextId := h.evolves.nextId
  allocated := h.evolves.allocated
  freed := h.evolves.freed
  silent id hlow hold hdead := by
    refine ⟨hlow, hold.trans_le h.evolves.nextId,
      h.evolves.not_live hgood.chained hold (by omega) hdead, fun m c hm hc ↦ ?_⟩
    rw [h.calls, List.getElem?_eq_none hm] at hc
    cases hc
  gone n _ _ _ hn hn' := by
    rw [h.calls] at hn'
    omega

/-- No event was lost: all cells are in the chain. -/
def Complete (s : EventLoop) (l : List ℕ) : Prop := ∀ a, s.timers.cells a ≠ none → a ∈ l

theorem Complete.evolves (h : s.Complete l) (hevolves : s.timers.Evolves s'.timers added) :
    s'.Complete (added ++ l) := by
  intro a ha
  by_cases hold : s.timers.allocated ≤ a
  · exact List.mem_append_left _ (hevolves.fresh a hold ha)
  · apply List.mem_append_right _ (h a fun hnone ↦ ha ?_)
    exact hevolves.freed a (not_le.mp hold) hnone

end EventLoop

end Ae

end MuxHiredis
