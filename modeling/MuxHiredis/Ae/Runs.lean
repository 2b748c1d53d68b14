import MuxHiredis.Ae.Dispatch
import MuxHiredis.Ae.TimePass
import MuxHiredis.Lib.Machine

/-!
# Runs of the event loop

The loop runs with callbacks that register and delete events at will.
-/

namespace MuxHiredis

namespace Ae

/-- What is done with a loop from outside, and what `aeMain` does. -/
inductive LoopAction where
  | perform (op : Op)
  | beforeSleep
  | process (flags : Flags) (ready : List (ℕ × EpollEvents))

namespace EventLoop

/-- What `aeCreateEventLoop` leaves. -/
structure Created (s : EventLoop) : Prop where
  files : s.files.Created
  head : s.timers.timeEventHead = none
  cells : ∀ a, s.timers.cells a = none
  nextId : s.timers.timeEventNextId = 0
  calls : s.calls = []

/-- A step of a run, as callers and the kernel make it. -/
def Admits (s : EventLoop) : LoopAction → Prop
  | .perform op => op.Proper
  | .beforeSleep => True
  | .process _ ready => s.files.kernel.Reports s.files.setsize ready

end EventLoop

instance (op : Op) : Decidable op.Proper :=
  match op with
  | .file (.create _ mask _ _ _) => inferInstanceAs (Decidable (mask ≠ ⊥))
  | .file (.delete _ _) | .file (.resize _) | .file (.opened _) | .file (.close _)
  | .createTime _ _ _ _ _ | .deleteTime _ | .stop | .setBeforeSleep _ | .setAfterSleep _ =>
      .isTrue trivial

instance (k : Kernel) (maxevents : ℕ) (ready : List (ℕ × EpollEvents)) :
    Decidable (k.Reports maxevents ready) :=
  decidable_of_iff (ready.length ≤ maxevents ∧ (ready.map Prod.fst).Nodup ∧
      ∀ e ∈ ready, ∃ m ∈ k.interest e.1, (e.2.epollin = true → m.1 = true) ∧
        (e.2.epollout = true → m.2 = true))
    ⟨fun ⟨h₁, h₂, h₃⟩ ↦ ⟨h₁, h₂, h₃⟩, fun h ↦ ⟨h.length, h.nodup, h.watched⟩⟩

instance (s : EventLoop) : DecidablePred s.Admits
  | .perform op => inferInstanceAs (Decidable op.Proper)
  | .beforeSleep => .isTrue trivial
  | .process _ ready => inferInstanceAs (Decidable (s.files.kernel.Reports _ ready))

def eventLoop (P : Program) : Machine EventLoop LoopAction where
  start := EventLoop.Created
  step s
    | .perform op => s.perform P op
    | .beforeSleep => s.callSleep P s.beforesleep
    | .process flags ready => (s.aeProcessEvents P flags ready).map Prod.snd

namespace EventLoop

variable {P : Program} {s s' : EventLoop} {l l' : List ℕ}

/-! ## A call of `aeProcessEvents` -/

/-- What `aeProcessEvents` comes to: a poll, and then a pass over the time events. -/
structure Processed (P : Program) (flags : Flags) (ready : List (ℕ × EpollEvents))
    (s s₁ s' : EventLoop) (l l₁ l' : List ℕ) (polled timed : List Call) : Prop where
  files : s.processFileEvents P flags ready = some (ready.length, s₁)
  poll : Polled P ready s s₁ l l₁ polled
  timeout : flags.timeEvents = true → flags.dontWait = false → ∃ shortest,
    s.timers.aeSearchNearestTimer = some shortest ∧
      s.polls ++ [(s.pollTimeout P shortest false).1] <+: s₁.polls
  pass : flags.timeEvents = true →
    Passed P (s₁.rewound (P.clock s₁.readings)) s₁ s' l₁ l' l₁ timed
  idle : flags.timeEvents = false → s' = s₁ ∧ l' = l₁ ∧ timed = []

theorem aeProcessEvents_processed (h : s.Good l) (hP : P.Proper) (hfixed : P.Fixed) (flags : Flags)
    (hflags : flags.timeEvents = true ∨ flags.fileEvents = true) {ready : List (ℕ × EpollEvents)}
    (hready : s.files.kernel.Reports s.files.setsize ready) :
    ∃ s₁ s' l₁ l' polled timed,
      s.aeProcessEvents P flags ready =
        some (ready.length + (timed.filterMap Call.timeId).length, s') ∧
      Processed P flags ready s s₁ s' l l₁ l' polled timed := by
  obtain ⟨s₁, l₁, polled, hrun, hpolls, hpolled⟩ :=
    processFileEvents_polled h hP hfixed flags hready
  have hsome : ¬(flags.timeEvents = false ∧ flags.fileEvents = false) := by
    rintro ⟨htime, hfile⟩
    rw [htime, hfile] at hflags
    simp at hflags
  unfold aeProcessEvents
  rw [if_neg hsome, hrun, Option.bind_some]
  dsimp only
  cases htime : flags.timeEvents with
  | true =>
      obtain ⟨n, s', l', timed, hpass, rfl, hpassed⟩ :=
        processTimeEvents_passed hpolled.moves.good hP
      refine ⟨s₁, s', l₁, l', polled, timed, ?_, hrun, hpolled, hpolls, fun _ ↦ hpassed,
        fun hnot ↦ ?_⟩
      · rw [if_pos rfl, hpass]
        rfl
      · exact nomatch htime.symm.trans hnot
  | false =>
      refine ⟨s₁, s₁, l₁, l₁, polled, [], rfl, hrun, hpolled, hpolls, fun hyes ↦ ?_,
        fun _ ↦ ⟨rfl, rfl, rfl⟩⟩
      exact nomatch htime.symm.trans hyes

/-! ## Runs -/

/-- The callback returned `AE_NOMORE`, or none did: then the event is gone. -/
def Ended (P : Program) (s s' : EventLoop) (l' : List ℕ) : Prop :=
  ∀ n id proc clientData now, s.calls.length ≤ n →
    s'.calls[n]? = some (.time id proc clientData now) → P.retval n = aeNomore →
    s'.Gone l' id (n + 1)

/-- What holds before and after a step of a run. -/
structure Steps (P : Program) (s s' : EventLoop) (l l' : List ℕ) : Prop where
  continues : Continues P s s' l l'
  ended : Ended P s s' l'
  complete : P.Tame s'.calls → s.Complete l → s'.Complete l'

theorem Steps.trans {s₁ s₂ s₃ : EventLoop} {l₁ l₂ l₃ : List ℕ} (h : Steps P s₁ s₂ l₁ l₂)
    (h' : Steps P s₂ s₃ l₂ l₃) : Steps P s₁ s₃ l₁ l₃ where
  continues := h.continues.trans h'.continues
  ended n id proc clientData now hn hc hretval := by
    by_cases hmid : n < s₂.calls.length
    · have hback := (getElem?_of_continued h'.continues.calls hmid).symm.trans hc
      exact (h.ended n id proc clientData now hn hback hretval).continues h'.continues
    · exact h'.ended n id proc clientData now (not_lt.mp hmid) hc hretval
  complete htame hcomplete :=
    h'.complete htame (h.complete (htame.of_continued h'.continues.calls) hcomplete)

/-- No time event is called. -/
theorem Ended.of_untimed {new : List Call} (hcalls : s'.calls = s.calls ++ new)
    (huntimed : ∀ c ∈ new, c.timeId = none) : Ended P s s' l' := by
  intro n id proc clientData now hn hc
  rw [hcalls, List.getElem?_append_right hn] at hc
  exact nomatch huntimed _ (List.mem_of_getElem? hc)

theorem Polled.steps {ready : List (ℕ × EpollEvents)} {new : List Call}
    (h : Polled P ready s s' l l' new) : Steps P s s' l l' where
  continues := h.moves.toContinues
  ended := .of_untimed h.calls h.untimed
  complete _ := h.complete

theorem Passed.steps {f : TimeEvent → TimeEvent} {rest : List ℕ} {new : List Call}
    (h : Passed P f s s' l l' rest new) : Steps P s s' l l' where
  continues := h.moves.toContinues
  ended := h.nomore
  complete := h.complete

theorem Fired.steps {new : List Call} (h : Fired P s s' l l' new) : Steps P s s' l l' where
  continues := h.moves.toContinues
  ended := .of_untimed h.calls h.untimed
  complete _ := h.complete

theorem Steps.refl (h : s.Good l) : Steps P s s l l := (Fired.refl h).steps

theorem Processed.steps {flags : Flags} {ready : List (ℕ × EpollEvents)} {s₁ : EventLoop}
    {l₁ : List ℕ} {polled timed : List Call}
    (h : Processed P flags ready s s₁ s' l l₁ l' polled timed) : Steps P s s' l l' := by
  cases htime : flags.timeEvents with
  | true => exact h.poll.steps.trans (h.pass htime).steps
  | false =>
      obtain ⟨rfl, rfl, -⟩ := h.idle htime
      exact h.poll.steps

/-- Every step of a run can be made. -/
theorem step_steps (h : s.Good l) (hP : P.Proper) (hfixed : P.Fixed) {a : LoopAction}
    (ha : s.Admits a) : ∃ s' l', (eventLoop P).step s a = some s' ∧ Steps P s s' l l' := by
  cases a with
  | perform op =>
      obtain ⟨s', added, hrun, hadvances⟩ := perform_advances P h ha
      refine ⟨s', _, hrun, hadvances.continues h, ?_, fun _ hcomplete ↦
        hcomplete.evolves hadvances.evolves⟩
      have hcalls : s'.calls = s.calls ++ [] := by rw [hadvances.calls, List.append_nil]
      exact .of_untimed hcalls nofun
  | beforeSleep =>
      obtain ⟨s', l', new, hrun, hfired, -⟩ := callSleep_fired h hP hfixed (Or.inl rfl)
      exact ⟨s', l', hrun, hfired.steps⟩
  | process flags ready =>
      by_cases hflags : flags.timeEvents = true ∨ flags.fileEvents = true
      · obtain ⟨s₁, s', l₁, l', polled, timed, hrun, hprocessed⟩ :=
          aeProcessEvents_processed h hP hfixed flags hflags ha
        exact ⟨s', l', congrArg (Option.map Prod.snd) hrun, hprocessed.steps⟩
      · have hnone : flags.timeEvents = false ∧ flags.fileEvents = false := by
          simpa using hflags
        refine ⟨s, l, ?_, .refl h⟩
        have hrun : s.aeProcessEvents P flags ready = some (0, s) := if_pos hnone
        exact congrArg (Option.map Prod.snd) hrun

/-- What holds in all runs. -/
structure Sound (P : Program) (s : EventLoop) (l : List ℕ) : Prop where
  good : s.Good l
  early : P.Clocked → s.timers.Early
  gone : ∀ n before after id, n < s.calls.length → P.ops n = before ++ .deleteTime id :: after →
    0 ≤ id → id < s.issued n + creations before → s.Gone l id (n + 1)
  ended : ∀ n id proc clientData now, s.calls[n]? = some (.time id proc clientData now) →
    P.retval n = aeNomore → s.Gone l id (n + 1)
  complete : P.Tame s.calls → s.Complete l

theorem Created.sound (h : s.Created) : s.Sound P [] where
  good := by
    refine ⟨h.files.tracked, h.files.watched, ⟨?_, fun a ha ↦ absurd (h.cells a) ha, h.nextId.ge,
      nofun, .nil⟩⟩
    rw [h.head]
    exact .nil _
  early _ a te hte := nomatch (h.cells a).symm.trans hte
  gone n _ _ _ hn := by
    rw [h.calls] at hn
    cases hn
  ended n id proc clientData now hc := by
    rw [h.calls] at hc
    cases hc
  complete _ a ha := absurd (h.cells a) ha

theorem Sound.steps (h : s.Sound P l) (hsteps : Steps P s s' l l') : s'.Sound P l' where
  good := hsteps.continues.good
  early hclock := hsteps.continues.early hclock (h.early hclock)
  gone n before after id hn hops hlow hid := by
    by_cases hmid : n < s.calls.length
    · rw [hsteps.continues.issued n hmid] at hid
      exact (h.gone n before after id hmid hops hlow hid).continues hsteps.continues
    · exact hsteps.continues.gone n before after id (not_lt.mp hmid) hn hops hlow hid
  ended n id proc clientData now hc hretval := by
    by_cases hmid : n < s.calls.length
    · have hback := (getElem?_of_continued hsteps.continues.calls hmid).symm.trans hc
      exact (h.ended n id proc clientData now hback hretval).continues hsteps.continues
    · exact hsteps.ended n id proc clientData now (not_lt.mp hmid) hc hretval
  complete htame :=
    hsteps.complete htame (h.complete (htame.of_continued hsteps.continues.calls))

theorem reach_sound (hP : P.Proper) (hfixed : P.Fixed) (hs : (eventLoop P).Reach Admits s) :
    ∃ l, s.Sound P l := by
  apply hs.invariant
  · exact fun s h ↦ ⟨[], h.sound⟩
  · rintro s a s' ⟨l, h⟩ ha hstep
    obtain ⟨s₁, l₁, hrun, hsteps⟩ := step_steps h.good hP hfixed ha
    obtain rfl := Option.some.inj (hstep.symm.trans hrun)
    exact ⟨l₁, h.steps hsteps⟩

/-! ## What is called -/

def newLoop : EventLoop :=
  ⟨Files.emptyLoop, ⟨0, 0, none, fun _ ↦ none, 0⟩, false, none, none, 0, [], [], fun _ ↦ 0⟩

theorem newLoop_created : newLoop.Created := ⟨Files.emptyLoop_created, rfl, fun _ ↦ rfl, rfl, rfl⟩

/-- The first callback deletes the time event 0 and stops the loop, and no event is
called twice. -/
def once : Program :=
  ⟨fun n ↦ if n = 0 then [.deleteTime 0, .stop] else [], fun _ ↦ aeNomore, fun _ ↦ (0, 0)⟩

theorem once_ops {n : ℕ} {op : Op} (h : op ∈ once.ops n) : op = .deleteTime 0 ∨ op = .stop := by
  unfold once at h
  dsimp only at h
  split_ifs at h
  · simpa using h
  · cases h

theorem once_proper : once.Proper := by
  intro n op h
  rcases once_ops h with rfl | rfl <;> trivial

theorem once_fixed : once.Fixed := by
  intro n setsize h
  rcases once_ops h with h | h <;> cases h

theorem once_clocked : once.Clocked := fun _ ↦ (by decide : (0 : ℤ) < 1000)

/-- A descriptor and two time events. -/
def setup : List LoopAction :=
  [.perform (.file (.opened 5)), .perform (.file (.create 5 aeReadable 1 0 false)),
    .perform (.createTime 0 7 0 none false), .perform (.createTime 0 8 0 none false)]

def readable : List (ℕ × EpollEvents) := [(5, ⟨true, false, false, false⟩)]

/-- A handler that has the events moved. -/
example : ((eventLoop ⟨fun _ ↦ [.file (.resize 32)], fun _ ↦ aeNomore, fun _ ↦ (0, 0)⟩).run newLoop
    [.perform (.file (.opened 5)), .perform (.file (.create 5 aeReadable 1 0 false)),
      .process .all readable]).isNone = true := by
  decide

/-- The identifiers of the chain decrease. -/
theorem liveIds_decreasing (h : s.Good l) : (s.liveIds l).Pairwise fun id id' ↦ id' < id := by
  have hlive : ∀ a id, s.liveId a = some id →
      ∃ te, s.timers.cells a = some te ∧ te.id = id ∧ id ≠ -1 := by
    intro a id hid
    unfold liveId at hid
    obtain ⟨te, hte, hid⟩ := Option.bind_eq_some_iff.mp hid
    split_ifs at hid with hmark
    exact ⟨te, hte, Option.some.inj hid, Option.some.inj hid ▸ hmark⟩
  rw [liveIds, List.pairwise_filterMap]
  refine h.chained.decreasing.imp fun {a b} hab id hid id' hid' ↦ ?_
  obtain ⟨te, hte, rfl, hne⟩ := hlive a id hid
  obtain ⟨te', hte', rfl, hne'⟩ := hlive b id' hid'
  exact hab te te' hte hte' hne hne'

/-- After the poll, the time events are called that are due, each at most once and the
newest first.  If no callback deletes an event that is due by all readings of the clock
then it is called, and what was deleted before is freed and its finalizer called,
unless a finalizer created an event. -/
theorem aeProcessEvents_timers (hP : P.Proper) (hfixed : P.Fixed)
    (hs : (eventLoop P).Reach Admits s) (flags : Flags) (htime : flags.timeEvents = true)
    (ready : List (ℕ × EpollEvents)) (hready : s.files.kernel.Reports s.files.setsize ready) :
    ∃ n s₁ s' timed, s.processFileEvents P flags ready = some (ready.length, s₁) ∧
      s.aeProcessEvents P flags ready = some (n, s') ∧ s'.calls = s₁.calls ++ timed ∧
      (timed.filterMap Call.timeId).Pairwise (fun id id' ↦ id' < id) ∧
      (∀ id proc clientData now, .time id proc clientData now ∈ timed → ∃ a te,
        s₁.timers.cells a = some te ∧ te.id = id ∧ te.timeProc = proc ∧
          te.clientData = clientData ∧ due (s₁.rewound (P.clock s₁.readings) te) now ∧
          ∃ k, s₁.readings ≤ k ∧ k < s'.readings ∧ now = P.clock k) ∧
      (P.Tame s₁.calls → ∀ a te, s₁.timers.cells a = some te → te.id ≠ -1 →
        P.Spares s₁.calls.length s'.calls.length te.id →
        (∀ k, s₁.readings ≤ k → k < s'.readings →
          due (s₁.rewound (P.clock s₁.readings) te) (P.clock k)) →
        ∃ now, .time te.id te.timeProc te.clientData now ∈ timed) ∧
      (P.Tame s₁.calls → ∀ a te, s₁.timers.cells a = some te → te.id = -1 →
        s'.timers.cells a = none ∧ finalizing a te ⊆ timed) := by
  obtain ⟨l, hsound⟩ := reach_sound hP hfixed hs
  obtain ⟨s₁, s', l₁, l', called, timed, hrun, hprocessed⟩ :=
    aeProcessEvents_processed hsound.good hP hfixed flags (Or.inl htime) hready
  have hsound₁ : s₁.Sound P l₁ := hsound.steps hprocessed.poll.steps
  have hpass := hprocessed.pass htime
  refine ⟨_, s₁, s', timed, hprocessed.files, hrun, hpass.calls, ?_,
    fun id proc clientData now hc ↦ ?_, fun htame a te hte ↦ ?_, fun htame a te hte ↦ ?_⟩
  · exact (liveIds_decreasing hsound₁.good).sublist hpass.order
  · obtain ⟨a, -, te, hte, hid, -, hrest⟩ := hpass.due id proc clientData now hc
    exact ⟨a, te, hte, hid, hrest⟩
  · exact hpass.called a (hsound₁.complete htame a (by rw [hte]; nofun)) te hte
  · exact hpass.removed a (hsound₁.complete htame a (by rw [hte]; nofun)) te hte

theorem aeProcessEvents_timers_once :
    ∃ (s s' : EventLoop) (n : ℕ) (timed : List Call),
      (eventLoop once).run newLoop setup = some s ∧
      s.aeProcessEvents once .all readable = some (n, s') ∧
      ∃ now, .time 1 8 0 now ∈ timed := by
  have hmeets : (eventLoop once).Meets Admits newLoop setup := by decide
  have hs := Machine.Reach.run (.start newLoop_created) hmeets rfl
  obtain ⟨n, s₁, s', timed, hpoll, hrun, hcalls, -, -, hall, -⟩ := aeProcessEvents_timers
    once_proper once_fixed hs .all rfl readable (by decide)
  have htame : once.Tame s₁.calls := by
    intro n addr proc clientData _ op hop
    rcases once_ops hop with rfl | rfl <;> exact id
  have hdue : ∀ te : TimeEvent, te = ⟨1, 0, 0, 8, none, 0, some 0⟩ ∨
      te = { (⟨1, 0, 0, 8, none, 0, some 0⟩ : TimeEvent) with when_sec := 0 } → due te (0, 0) := by
    rintro te (rfl | rfl) <;> exact Or.inr ⟨rfl, le_rfl⟩
  obtain rfl := (Prod.mk.inj (Option.some.inj hpoll)).2
  refine ⟨_, s', n, timed, rfl, hrun, hall htame 1 ⟨1, 0, 0, 8, none, 0, some 0⟩ rfl (by decide)
    (fun n _ _ hop ↦ ?_) fun k _ _ ↦ ?_⟩
  · rcases once_ops hop with h | h <;> cases h
  · exact hdue _ (rewound_cases _ _ _)

/-- A finalizer that creates an event, which is lost when the next event is removed. -/
example : ((eventLoop ⟨fun n ↦ if n = 0 then [.createTime 0 7 0 none false] else [],
      fun _ ↦ aeNomore, fun _ ↦ (0, 0)⟩).run newLoop
    [.perform (.createTime 0 7 0 (some 9) false), .perform (.createTime 0 7 0 (some 9) false),
      .perform (.deleteTime 0), .perform (.deleteTime 1),
      .process .all []]).map (fun s ↦
        (s.timers.timeEventHead, (s.timers.cells 2).map TimeEvent.id)) = some (none, some 2) := by
  decide

theorem run_continues (h : s.Good l) (hP : P.Proper) (hfixed : P.Fixed) {actions : List LoopAction}
    (hmeets : (eventLoop P).Meets Admits s actions)
    (hrun : (eventLoop P).run s actions = some s') : ∃ l', Continues P s s' l l' := by
  induction actions generalizing s l with
  | nil =>
      obtain rfl := Option.some.inj hrun
      exact ⟨l, (Moves.refl h).toContinues⟩
  | cons a actions ih =>
      obtain ⟨hadmits, hmeets⟩ := hmeets
      obtain ⟨s₁, l₁, hstep, hsteps⟩ := step_steps h hP hfixed hadmits
      obtain ⟨s₂, hstep', hrun⟩ := Option.bind_eq_some_iff.mp hrun
      obtain rfl := Option.some.inj (hstep.symm.trans hstep')
      rw [hstep] at hmeets
      obtain ⟨l', hrest⟩ := ih hsteps.continues.good hmeets hrun
      exact ⟨l', hsteps.continues.trans hrest⟩

/-- In no run is an event called after a callback deleted it, which may have created it
before, or after its own callback returned `AE_NOMORE`, or after it was deleted from outside. -/
theorem eventLoop_silent (hP : P.Proper) (hfixed : P.Fixed) (hs : (eventLoop P).Reach Admits s) :
    (∀ n before after id m c, P.ops n = before ++ .deleteTime id :: after → 0 ≤ id →
      id < s.issued n + creations before → n < m → s.calls[m]? = some c → c.timeId ≠ some id) ∧
    (∀ n id proc clientData now m c, s.calls[n]? = some (.time id proc clientData now) →
      P.retval n = aeNomore → n < m → s.calls[m]? = some c → c.timeId ≠ some id) ∧
    ∀ id s₁ actions s₂, 0 ≤ id → id < s.timers.timeEventNextId →
      s.perform P (.deleteTime id) = some s₁ → (eventLoop P).Meets Admits s₁ actions →
      (eventLoop P).run s₁ actions = some s₂ → ∀ m c, s.calls.length ≤ m →
      s₂.calls[m]? = some c → c.timeId ≠ some id := by
  obtain ⟨l, hsound⟩ := reach_sound hP hfixed hs
  refine ⟨fun n before after id m c hops hlow hid hnm hc ↦ ?_,
    fun n id proc clientData now m c hn hretval hnm hc ↦ ?_,
    fun id s₁ actions s₂ hlow hold hdelete hmeets hrun m c hm hc ↦ ?_⟩
  · have hlt : n < s.calls.length := hnm.trans (List.getElem?_eq_some_iff.mp hc).1
    exact (hsound.gone n before after id hlt hops hlow hid).uncalled m c hnm hc
  · exact (hsound.ended n id proc clientData now hn hretval).uncalled m c hnm hc
  · obtain ⟨s₀, added, hperform, hadvances⟩ := deleteTime_advances (P := P) hsound.good id
    obtain rfl := Option.some.inj (hdelete.symm.trans hperform)
    obtain ⟨l', hcontinues⟩ := run_continues hadvances.good hP hfixed hmeets hrun
    have hdead := hadvances.deleted [] [] id rfl hlow (hold.trans_eq (add_zero _).symm)
    have hgone := hcontinues.silent id hlow (hold.trans_le hadvances.evolves.nextId) hdead
    exact hgone.uncalled m c (hadvances.calls ▸ hm) hc

theorem eventLoop_silent_once :
    ∃ s, (eventLoop once).run newLoop (setup ++ [.process .all readable]) =
        some s ∧
      s.calls.length = 2 ∧ ∀ m c, 0 < m → s.calls[m]? = some c → c.timeId ≠ some 0 := by
  have hmeets : (eventLoop once).Meets Admits newLoop
    (setup ++ [.process .all readable]) := by decide
  have hs := Machine.Reach.run (.start newLoop_created) hmeets rfl
  obtain ⟨hdeleted, -⟩ := eventLoop_silent once_proper once_fixed hs
  exact ⟨_, rfl, rfl, fun m c ↦ hdeleted 0 [] [.stop] 0 m c rfl (by decide) (by decide)⟩

/-! ## The timeout -/

/-- The milliseconds until the event is due. -/
def remaining (te : TimeEvent) (now : ℤ × ℤ) : ℤ :=
  (te.when_sec - now.1) * 1000 + te.when_ms - now.2

/-- `epoll_wait` may still block at the time `c`. -/
def Asleep (timeout : ℤ) (now c : ℤ × ℤ) : Prop :=
  0 ≤ c.2 ∧ now.1 * 1000 + now.2 ≤ c.1 * 1000 + c.2 ∧
    (timeout < 0 ∨ c.1 * 1000 + c.2 < now.1 * 1000 + now.2 + timeout)

theorem wrap32_cases {m : ℤ} (h : 0 < m) :
    m % 2 ^ 32 < 2 ^ 31 ∧ 0 ≤ wrap32 m ∧ wrap32 m ≤ m ∨ ¬m % 2 ^ 32 < 2 ^ 31 ∧ wrap32 m < 0 := by
  unfold wrap32
  rw [Int.bmod_def]
  omega

/-- The loop does not sleep past the nearest event, but for the cut to an `int`. -/
theorem punctual_iff (h : s.Good l) (hclock : P.Clocked) (hearly : s.timers.Early)
    {shortest : Option TimeEvent}
    (hshortest : s.timers.aeSearchNearestTimer = some shortest) :
    (∀ a ∈ l, ∀ te, s.timers.cells a = some te → ∀ c,
      Asleep (s.pollTimeout P shortest false).1 (P.clock s.readings) c → ¬due te c) ↔
      ∀ nearest, shortest = some nearest → remaining nearest (P.clock s.readings) ≤ 0 ∨
        remaining nearest (P.clock s.readings) % 2 ^ 32 < 2 ^ 31 := by
  obtain ⟨r, hr, hnone, hsome⟩ :=
    Timers.searchNearest_spec s.timers h.chained.linked h.chained.length_le none
  obtain rfl := Option.some.inj (hr.symm.trans hshortest)
  cases r with
  | none =>
      have hnil : l = [] := (hnone.mp rfl).1
      exact iff_of_true (fun a ha ↦ absurd (hnil ▸ ha) List.not_mem_nil) nofun
  | some nearest =>
      obtain ⟨hwhere, -, hbest⟩ := hsome nearest rfl
      obtain ⟨b, hb, hnearest⟩ : ∃ a ∈ l, s.timers.cells a = some nearest :=
        hwhere.resolve_left nofun
      have hms := hearly b nearest hnearest
      have hnow := hclock s.readings
      have htimeout : (s.pollTimeout P (some nearest) false).1 =
          if 0 < remaining nearest (P.clock s.readings) then
            wrap32 (remaining nearest (P.clock s.readings)) else 0 := rfl
      rw [htimeout]
      generalize P.clock s.readings = now at hnow ⊢
      constructor
      · rintro hall nearest' heq
        obtain rfl := Option.some.inj heq
        by_contra hnot
        rw [not_or, not_le] at hnot
        obtain ⟨hpos, hwrap⟩ := hnot
        have hforever := (wrap32_cases hpos).resolve_left fun hfits ↦ hwrap hfits.1
        rw [if_pos hpos] at hall
        -- Then the loop sleeps at all times.
        refine hall b hb nearest hnearest (max nearest.when_sec now.1 + 1, 0)
          ⟨le_rfl, ?_, Or.inl hforever.2⟩ (Or.inl ?_)
        · have hle := le_max_right nearest.when_sec now.1
          dsimp only
          omega
        · have hle := le_max_left nearest.when_sec now.1
          dsimp only
          omega
      · intro hfits a ha te hte c hasleep hdue
        obtain ⟨hc, hlater, hasleep⟩ := hasleep
        have hbefore := hbest a ha te hte
        -- The nearest event is due as well, and not before its time.
        have hnearest_le : nearest.when_sec * 1000 + nearest.when_ms ≤ c.1 * 1000 + c.2 := by
          unfold Timers.before at hbefore
          unfold due at hdue
          omega
        have hremaining : now.1 * 1000 + now.2 + remaining nearest now =
            nearest.when_sec * 1000 + nearest.when_ms := by
          unfold remaining
          ring
        by_cases hpos : 0 < remaining nearest now
        · rw [if_pos hpos] at hasleep
          have hfits := (hfits nearest rfl).resolve_left (not_le.mpr hpos)
          have hwrap := (wrap32_cases hpos).resolve_right fun h ↦ h.1 hfits
          omega
        · rw [if_neg hpos] at hasleep
          omega

/-- What the kernel reports in each round. -/
inductive Serves (P : Program) : EventLoop → List (List (ℕ × EpollEvents)) → Prop
  | nil (s : EventLoop) : Serves P s []
  | cons {s s₁ : EventLoop} {ready : List (ℕ × EpollEvents)}
      {reports : List (List (ℕ × EpollEvents))} : s.callSleep P s.beforesleep = some s₁ →
      s₁.files.kernel.Reports s₁.files.setsize ready →
      (∀ s₂, s.mainRound P ready = some s₂ → Serves P s₂ reports) →
      Serves P s (ready :: reports)

theorem mainRound_moves (h : s.Good l) (hP : P.Proper) (hfixed : P.Fixed)
    {ready : List (ℕ × EpollEvents)}
    (hready : ∀ s₁, s.callSleep P s.beforesleep = some s₁ →
      s₁.files.kernel.Reports s₁.files.setsize ready) :
    ∃ s' l', s.mainRound P ready = some s' ∧ Moves P s s' l l' := by
  obtain ⟨s₁, l₁, new, hsleep, hfired, -⟩ := callSleep_fired h hP hfixed (Or.inl rfl)
  obtain ⟨s₂, s', l₂, l', polled, timed, hrun, hprocessed⟩ := aeProcessEvents_processed
    hfired.moves.good hP hfixed .all (Or.inl rfl) (hready s₁ hsleep)
  refine ⟨s', l', ?_, (hfired.moves.trans hprocessed.poll.moves).trans (hprocessed.pass rfl).moves⟩
  rw [mainRound, hsleep, Option.bind_some, hrun, Option.map_some]

theorem mainLoop_stopped (hstop : s.stop = true) (reports : List (List (ℕ × EpollEvents))) :
    mainLoop P reports s = some s := by
  cases reports with
  | nil => rfl
  | cons ready reports => exact if_pos hstop

theorem mainLoop_cons (hstop : s.stop = false) (ready : List (ℕ × EpollEvents))
    (reports : List (List (ℕ × EpollEvents))) :
    mainLoop P (ready :: reports) s = (s.mainRound P ready).bind (mainLoop P reports) := by
  rw [mainLoop, hstop]
  rfl

/-- All rounds, by induction on the reports. -/
theorem mainLoop_rounds (h : s.Good l) (hP : P.Proper) (hfixed : P.Fixed) (hstop : s.stop = false)
    {reports : List (List (ℕ × EpollEvents))} (hserves : Serves P s reports) :
    ∃ used left s' l', reports = used ++ left ∧ mainLoop P used s = some s' ∧
      Moves P s s' l l' ∧ (s'.stop = true → ∀ more, mainLoop P (used ++ more) s = some s') ∧
      (left ≠ [] → s'.stop = true) ∧
      ∀ front rest, used = front ++ rest → rest ≠ [] → ∃ s₁, mainLoop P front s = some s₁ ∧
        s₁.stop = false ∧ ∀ n, s.calls.length ≤ n → n < s₁.calls.length → .stop ∉ P.ops n := by
  induction reports generalizing s l with
  | nil =>
      refine ⟨[], [], s, l, rfl, rfl, .refl h, fun hyes ↦ ?_, fun hne ↦ absurd rfl hne, ?_⟩
      · rw [hstop] at hyes
        cases hyes
      · intro front rest hsplit hrest
        exact absurd (List.append_eq_nil_iff.mp hsplit.symm).2 hrest
  | cons ready reports ih =>
      obtain ⟨-⟩ | ⟨hsleep, hready, hserves⟩ := hserves
      have hreports : ∀ s₁, s.callSleep P s.beforesleep = some s₁ →
          s₁.files.kernel.Reports s₁.files.setsize ready :=
        fun s₁ hs₁ ↦ Option.some.inj (hsleep.symm.trans hs₁) ▸ hready
      obtain ⟨s₁, l₁, hround, hmoves⟩ := mainRound_moves h hP hfixed hreports
      have hfirst : ∀ reports, mainLoop P (ready :: reports) s = mainLoop P reports s₁ := by
        intro reports
        rw [mainLoop_cons hstop, hround, Option.bind_some]
      have hnil : ∃ s₁, mainLoop P [] s = some s₁ ∧ s₁.stop = false ∧
          ∀ n, s.calls.length ≤ n → n < s₁.calls.length → .stop ∉ P.ops n :=
        ⟨s, rfl, hstop, fun n hn hn' ↦ absurd hn (not_le.mpr hn')⟩
      cases hstop₁ : s₁.stop with
      | true =>
          refine ⟨[ready], reports, s₁, l₁, rfl, hfirst [], hmoves, fun _ more ↦ ?_,
            fun _ ↦ hstop₁, ?_⟩
          · rw [List.singleton_append, hfirst, mainLoop_stopped hstop₁]
          · intro front rest hsplit hrest
            cases front with
            | nil => exact hnil
            | cons first front =>
                have htail := (List.cons.inj hsplit).2
                exact absurd (List.append_eq_nil_iff.mp htail.symm).2 hrest
      | false =>
          obtain ⟨used, left, s', l', rfl, hrun, hrest, hmore, hleft, hnone⟩ :=
            ih hmoves.good hstop₁ (hserves s₁ hround)
          refine ⟨ready :: used, left, s', l', rfl, ?_, hmoves.trans hrest, fun hyes more ↦ ?_,
            hleft, ?_⟩
          · rw [hfirst, hrun]
          · rw [List.cons_append, hfirst, hmore hyes]
          · intro front rest hsplit hne
            cases front with
            | nil => exact hnil
            | cons first front =>
                obtain ⟨rfl, htail⟩ := List.cons.inj hsplit
                obtain ⟨s₂, hrun₂, hstop₂, hnone₂⟩ := hnone front rest htail hne
                refine ⟨s₂, (hfirst front).trans hrun₂, hstop₂, fun n hn hn' hop ↦ ?_⟩
                by_cases hmid : n < s₁.calls.length
                · have hstopped := hmoves.stop.mpr (Or.inr ⟨n, hn, hmid, hop⟩)
                  exact nomatch hstop₁.symm.trans hstopped
                · exact hnone₂ n (not_lt.mp hmid) hn' hop

end EventLoop

end Ae

end MuxHiredis
