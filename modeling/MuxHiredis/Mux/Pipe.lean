import MuxHiredis.Lib.Census
import MuxHiredis.Lib.Machine

/-!
# The task pipe

A caller puts its command into `cmd_list` and then writes one byte to the task
pipe; the write is dropped when the pipe is full.  `taskDeal` reads up to 1024
bytes before it looks at the status and takes one command for each byte.  Here a
`cmd_list` is a plain list, from which a caller whose wait is over takes its
command in one step.
-/

namespace MuxHiredis

/-- Where a caller stands in `__xRedisCommand`. -/
inductive PipeCaller where
  | entered
  | writing
  | waiting
  | searching
  | returned
  deriving DecidableEq

/-- The event loop in `taskDeal`: after the `read`, and with `xc->mutex` held. -/
inductive TaskDeal where
  | idle
  | read (getNum : ℕ)
  | dealing (ac getNum : ℕ)
  deriving DecidableEq

inductive Link where
  | unmade
  | connecting
  | connected
  | torn
  deriving DecidableEq

/-- The part of a connection that the wake-ups depend on.  A caller goes by the
number of its `cmdInfo`; `ac` is the context that it has read from `xc->ctx`, and
`L` is what a `cmd_list` is. -/
structure Pipe (L : Type*) where
  bytes : ℕ
  connected : Bool
  ctx : Option ℕ
  links : ℕ → Link
  cmdLists : ℕ → L
  next : ℕ
  callers : ℕ → PipeCaller
  ac : ℕ → ℕ
  reference : ℕ → ℤ
  dispatched : ℕ → Bool
  loop : TaskDeal

/-- The number of wake-ups that `taskDeal` has read and not used. -/
def TaskDeal.getNum : TaskDeal → ℕ
  | .idle => 0
  | .read getNum => getNum
  | .dealing _ getNum => getNum

/-- The event loop has `xc->mutex`. -/
def TaskDeal.Locked : TaskDeal → Prop
  | .dealing _ _ => True
  | _ => False

instance : DecidablePred TaskDeal.Locked
  | .dealing _ _ => .isTrue trivial
  | .idle | .read _ => .isFalse id

namespace Pipe

inductive Action where
  | enter
  | refuse (id : ℕ)
  | enqueue (id : ℕ)
  | write (id : ℕ)
  | countDown (id : ℕ)
  | search (id : ℕ)
  | task (k : ℕ)
  | lock
  | take
  | reply (id : ℕ)
  | disconnect (c : ℕ)
  | attempt (c : ℕ)
  | giveUp
  | connect (c : ℕ)
  | fail (c : ℕ)

section Steps

variable {L : Type*}

def setCaller (s : Pipe L) (id : ℕ) (at' : PipeCaller) : Pipe L :=
  { s with callers := Function.update s.callers id at' }

def setCmdList (s : Pipe L) (c : ℕ) (list : L) : Pipe L :=
  { s with cmdLists := Function.update s.cmdLists c list }

def enter (s : Pipe L) : Option (Pipe L) :=
  some { s.setCaller s.next .entered with next := s.next + 1 }

/-- The status is looked at once before the lock. -/
def refuse (s : Pipe L) (id : ℕ) : Option (Pipe L) :=
  if id < s.next ∧ s.callers id = .entered ∧ s.connected = false then
    some (s.setCaller id .returned)
  else none

/-- The section under `xc->mutex`. -/
def enqueue (s : Pipe (List ℕ)) (id : ℕ) : Option (Pipe (List ℕ)) :=
  if id < s.next ∧ s.callers id = .entered ∧ ¬s.loop.Locked then
    match s.ctx with
    | none => some (s.setCaller id .returned)
    | some c =>
        if s.connected then
          some { (s.setCaller id .writing).setCmdList c (s.cmdLists c ++ [id]) with
            ac := Function.update s.ac id c
            reference := Function.update s.reference id 2 }
        else some (s.setCaller id .returned)
  else none

/-- `write` to the task pipe of `capacity` bytes. -/
def write (capacity : ℕ) (s : Pipe L) (id : ℕ) : Option (Pipe L) :=
  if id < s.next ∧ s.callers id = .writing then
    some { s.setCaller id .waiting with
      bytes := if s.bytes < capacity then s.bytes + 1 else s.bytes }
  else none

/-- After the wait, however it ended. -/
def countDown (s : Pipe L) (id : ℕ) : Option (Pipe L) :=
  if id < s.next ∧ s.callers id = .waiting then
    some { s.setCaller id (if s.reference id - 1 ≤ 0 then .returned else .searching) with
      reference := Function.update s.reference id (s.reference id - 1) }
  else none

/-- `listSearchKey` and `listDelNode`, without a lock. -/
def search (s : Pipe (List ℕ)) (id : ℕ) : Option (Pipe (List ℕ)) :=
  if id < s.next ∧ s.callers id = .searching then
    some ((s.setCaller id .returned).setCmdList (s.ac id) ((s.cmdLists (s.ac id)).erase id))
  else none

/-- The `read` of `taskDeal`; a failed one counts for 1024. -/
def task (s : Pipe L) (k : ℕ) : Option (Pipe L) :=
  if s.loop = .idle then
    if s.bytes = 0 then some { s with loop := .read 1024 }
    else if 1 ≤ k ∧ k ≤ s.bytes ∧ k ≤ 1024 then
      some { s with bytes := s.bytes - k, loop := .read k }
    else none
  else none

def lock (s : Pipe L) : Option (Pipe L) :=
  match s.loop with
  | .read getNum =>
      if s.connected then s.ctx.map fun c ↦ { s with loop := .dealing c getNum }
      else some { s with loop := .idle }
  | _ => none

/-- One round of the loop of `taskDeal`. -/
def take (s : Pipe (List ℕ)) : Option (Pipe (List ℕ)) :=
  match s.loop with
  | .dealing c getNum =>
      match s.cmdLists c with
      | [] => some { s with loop := .idle }
      | id :: rest =>
          some { s.setCmdList c rest with
            dispatched := Function.update s.dispatched id true
            loop := if getNum - 1 ≤ 0 then .idle else .dealing c (getNum - 1) }
  | _ => none

/-- `replyCallback` for a dispatched command. -/
def reply (s : Pipe L) (id : ℕ) : Option (Pipe L) :=
  if s.loop = .idle ∧ s.dispatched id = true then
    some { s with reference := Function.update s.reference id (s.reference id - 1) }
  else none

/-- The first section of `disconnectedCallback`. -/
def disconnect (s : Pipe (List ℕ)) (c : ℕ) : Option (Pipe (List ℕ)) :=
  if s.loop = .idle ∧ s.links c = .connected then
    some { s.setCmdList c [] with
      reference := fun id ↦
        if id ∈ s.cmdLists c then s.reference id - 1 else s.reference id
      connected := false
      links := Function.update s.links c .torn }
  else none

/-- The reconnect thread, or `xRedisConnect`, makes a context. -/
def attempt (s : Pipe L) (c : ℕ) : Option (Pipe L) :=
  if ¬s.loop.Locked ∧ s.links c = .unmade then
    some { s with ctx := some c, links := Function.update s.links c .connecting }
  else none

/-- The wait of the reconnect thread ends without a connection. -/
def giveUp (s : Pipe L) : Option (Pipe L) :=
  if ¬s.loop.Locked ∧ s.connected = false then some { s with ctx := none } else none

/-- `connectedCallback`. -/
def connect (s : Pipe L) (c : ℕ) : Option (Pipe L) :=
  if s.loop = .idle ∧ s.links c = .connecting then
    some { s with connected := true, links := Function.update s.links c .connected }
  else none

/-- The connect fails: the status stays as it is. -/
def fail (s : Pipe L) (c : ℕ) : Option (Pipe L) :=
  if s.loop = .idle ∧ s.links c = .connecting then
    some { s with links := Function.update s.links c .torn }
  else none

def step (capacity : ℕ) (s : Pipe (List ℕ)) : Action → Option (Pipe (List ℕ))
  | .enter => s.enter
  | .refuse id => s.refuse id
  | .enqueue id => s.enqueue id
  | .write id => s.write capacity id
  | .countDown id => s.countDown id
  | .search id => s.search id
  | .task k => s.task k
  | .lock => s.lock
  | .take => s.take
  | .reply id => s.reply id
  | .disconnect c => s.disconnect c
  | .attempt c => s.attempt c
  | .giveUp => s.giveUp
  | .connect c => s.connect c
  | .fail c => s.fail c

/-- An empty pipe and no connection yet. -/
def fresh : Pipe (List ℕ) where
  bytes := 0
  connected := false
  ctx := none
  links := fun _ ↦ .unmade
  cmdLists := fun _ ↦ []
  next := 0
  callers := fun _ ↦ .returned
  ac := fun _ ↦ 0
  reference := fun _ ↦ 0
  dispatched := fun _ ↦ false
  loop := .idle

def machine (capacity : ℕ) : Machine (Pipe (List ℕ)) Action := ⟨(· = fresh), step capacity⟩

/-- The callers that have enqueued and not yet written their byte. -/
def writers (s : Pipe L) : Finset ℕ := census s.next s.callers (· = .writing)

/-- The callers inside `__xRedisCommand`. -/
def inside (s : Pipe L) : Finset ℕ := census s.next s.callers (· ≠ .returned)

/-- No wake-up is lost. -/
def Roused (s : Pipe (List ℕ)) : Prop :=
  s.connected = true → s.loop = .idle → ∀ c, s.ctx = some c →
    (s.cmdLists c).length ≤ s.bytes + s.writers.card ∧
      (s.cmdLists c ≠ [] → 0 < s.bytes ∨ s.writers.Nonempty)

/-- At most `capacity` callers are inside, and `xc->ctx` is the context whose
connect has set the status. -/
def Assumed (capacity : ℕ) (s : Pipe L) : Action → Prop
  | .enter => s.inside.card < capacity
  | .attempt _ => s.connected = false
  | .connect c => s.connected = true ∨ s.ctx = some c
  | _ => True

instance (capacity : ℕ) (s : Pipe L) : DecidablePred (s.Assumed capacity)
  | .enter => inferInstanceAs (Decidable (_ < _))
  | .attempt _ => inferInstanceAs (Decidable (_ = _))
  | .connect _ => inferInstanceAs (Decidable (_ ∨ _))
  | .refuse _ | .enqueue _ | .write _ | .countDown _ | .search _ | .task _ | .lock | .take
  | .reply _ | .disconnect _ | .giveUp | .fail _ => .isTrue trivial

/-- A caller that its command in `cmd_list` belongs to has not counted down yet, or
will look for the command. -/
def Awaits (s : Pipe L) (id : ℕ) : Prop :=
  (s.callers id = .writing ∨ s.callers id = .waiting) ∧ s.reference id = 2 ∨
    s.callers id = .searching

end Steps

/-- The invariant; `backlog` counts the wake-ups. -/
structure Counted (capacity : ℕ) (s : Pipe (List ℕ)) : Prop where
  room : s.inside.card ≤ capacity
  current : s.connected = true → ∃ c, s.ctx = some c ∧ s.links c = .connected
  unopened : ∀ c, s.links c = .unmade ∨ s.links c = .connecting → s.cmdLists c = []
  locked : ∀ c getNum, s.loop = .dealing c getNum → s.connected = true ∧ s.ctx = some c
  undispatched : ∀ id, s.next ≤ id ∨ s.callers id = .entered → s.dispatched id = false
  nodup : ∀ c, (s.cmdLists c).Nodup
  queued : ∀ c, ∀ id ∈ s.cmdLists c,
    id < s.next ∧ s.ac id = c ∧ s.dispatched id = false ∧ s.Awaits id
  backlog : s.connected = true → ∀ c, s.ctx = some c →
    (s.cmdLists c).length ≤ s.bytes + s.writers.card + s.loop.getNum

namespace Counted

variable {capacity : ℕ} {s s' : Pipe (List ℕ)}

theorem length_le_inside (h : s.Counted capacity) (c : ℕ) :
    (s.cmdLists c).length ≤ s.inside.card := by
  apply length_le_card_census (h.nodup c)
  intro id hid
  obtain ⟨hnext, -, -, hawaits⟩ := h.queued c id hid
  refine ⟨hnext, ?_⟩
  rcases hawaits with ⟨hat | hat, -⟩ | hat <;> simp [hat]

theorem roused (h : s.Counted capacity) : s.Roused := by
  intro hconnected hidle c hc
  have hlength := h.backlog hconnected c hc
  rw [hidle, TaskDeal.getNum, Nat.add_zero] at hlength
  refine ⟨hlength, fun hne ↦ ?_⟩
  have hpos := List.length_pos_iff.mpr hne
  rw [← Finset.card_pos]
  omega

theorem notMem (h : s.Counted capacity) {id : ℕ} (hawaits : ¬s.Awaits id) (c : ℕ) :
    id ∉ s.cmdLists c := fun hid ↦ hawaits (h.queued c id hid).2.2.2

theorem inside_move {id : ℕ} {at' : PipeCaller} (hid : id < s.next)
    (hinside : s.callers id ≠ .returned) :
    (s.setCaller id at').inside.card ≤ s.inside.card := by
  by_cases hat : at' = .returned
  · have hcard := card_census_leave (p := (· ≠ PipeCaller.returned)) hid hinside
      (by simpa using hat)
    exact Nat.le_of_lt (Nat.lt_of_succ_le hcard.le)
  · apply le_of_eq
    exact congrArg _ (census_update_same (by simp [hat, hinside]))

theorem writers_move {id : ℕ} {at' : PipeCaller} (hfrom : s.callers id ≠ .writing)
    (hto : at' ≠ .writing) : (s.setCaller id at').writers = s.writers :=
  census_update_same (by simp [hfrom, hto])

theorem awaits_move {id id' : ℕ} {at' : PipeCaller} (hne : id' ≠ id) :
    (s.setCaller id at').Awaits id' ↔ s.Awaits id' := by
  simp [Awaits, setCaller, hne]

theorem undispatched_move (h : s.Counted capacity) {id : ℕ} {at' : PipeCaller}
    (hat : at' ≠ .entered) (id' : ℕ)
    (hid' : s.next ≤ id' ∨ (s.setCaller id at').callers id' = .entered) :
    s.dispatched id' = false := by
  apply h.undispatched
  rcases hid' with hnext | hentered
  · exact .inl hnext
  · dsimp only [setCaller] at hentered
    by_cases hne : id' = id
    · rw [hne, Function.update_self] at hentered
      exact absurd hentered hat
    · rw [Function.update_of_ne hne] at hentered
      exact .inr hentered

theorem leave (h : s.Counted capacity) {id : ℕ} (hid : id < s.next)
    (hentered : s.callers id = .entered) : (s.setCaller id .returned).Counted capacity := by
  have hnotmem : ∀ c, id ∉ s.cmdLists c := h.notMem (by simp [Awaits, hentered])
  constructor
  · exact (inside_move hid (by simp [hentered])).trans h.room
  · exact h.current
  · exact h.unopened
  · exact h.locked
  · exact h.undispatched_move (by simp)
  · exact h.nodup
  · intro c id' hmem
    have hne : id' ≠ id := fun heq ↦ hnotmem c (heq ▸ hmem)
    obtain ⟨hnext, hac, hout, hawaits⟩ := h.queued c id' hmem
    exact ⟨hnext, hac, hout, (awaits_move hne).mpr hawaits⟩
  · intro hconnected c hc
    rw [writers_move (by simp [hentered]) (by simp)]
    exact h.backlog hconnected c hc

theorem enter (h : s.Counted capacity) (hroom : s.inside.card < capacity)
    (hstep : s.enter = some s') : s'.Counted capacity := by
  obtain rfl := Option.some.inj hstep
  constructor
  · exact card_census_enter.trans hroom
  · exact h.current
  · exact h.unopened
  · exact h.locked
  · intro id hid
    apply h.undispatched
    rcases hid with hnext | hat
    · exact .inl (Nat.le_of_succ_le hnext)
    · by_cases hne : id = s.next
      · exact .inl hne.ge
      · dsimp only [setCaller] at hat
        rw [Function.update_of_ne hne] at hat
        exact .inr hat
  · exact h.nodup
  · intro c id hmem
    obtain ⟨hnext, hac, hout, hawaits⟩ := h.queued c id hmem
    exact ⟨Nat.lt_succ_of_lt hnext, hac, hout, (awaits_move hnext.ne).mpr hawaits⟩
  · intro hconnected c hc
    have hwriters : census (s.next + 1) (Function.update s.callers s.next .entered)
        (· = .writing) = s.writers := census_enter (by simp)
    exact (h.backlog hconnected c hc).trans (by rw [← hwriters]; rfl)

theorem refuse (h : s.Counted capacity) {id : ℕ} (hstep : s.refuse id = some s') :
    s'.Counted capacity := by
  simp only [Pipe.refuse, Option.ite_none_right_eq_some, Option.some.injEq] at hstep
  obtain ⟨⟨hid, hentered, -⟩, rfl⟩ := hstep
  exact h.leave hid hentered

theorem enqueue (h : s.Counted capacity) {id : ℕ} (hstep : s.enqueue id = some s') :
    s'.Counted capacity := by
  simp only [Pipe.enqueue, Option.ite_none_right_eq_some] at hstep
  obtain ⟨⟨hid, hentered, hfree⟩, hstep⟩ := hstep
  split at hstep
  · obtain rfl := Option.some.inj hstep
    exact h.leave hid hentered
  rename_i c hctx
  split at hstep
  · rename_i hconnected
    obtain rfl := Option.some.inj hstep
    have hnotmem : ∀ c, id ∉ s.cmdLists c := h.notMem (by simp [Awaits, hentered])
    obtain ⟨c', hc', hlink⟩ := h.current hconnected
    obtain rfl := Option.some.inj (hctx.symm.trans hc')
    constructor
    · exact (inside_move hid (by simp [hentered])).trans h.room
    · exact h.current
    · intro c' hc'
      have hne : c' ≠ c := by
        rintro rfl
        simp [setCmdList, setCaller, hlink] at hc'
      dsimp only [setCmdList, setCaller]
      rw [Function.update_of_ne hne]
      exact h.unopened c' hc'
    · exact h.locked
    · exact h.undispatched_move (by simp)
    · intro c'
      dsimp only [setCmdList, setCaller]
      by_cases hne : c' = c
      · subst hne
        rw [Function.update_self]
        exact (h.nodup c').append (List.nodup_singleton id) (by simpa using hnotmem c')
      · rw [Function.update_of_ne hne]
        exact h.nodup c'
    · intro c' id' hmem
      dsimp only [setCmdList, setCaller] at hmem
      by_cases hid' : id' = id
      · subst hid'
        have hc' : c' = c := by
          by_contra hne
          rw [Function.update_of_ne hne] at hmem
          exact hnotmem c' hmem
        refine ⟨hid, by simp [hc'], h.undispatched id' (.inr hentered), .inl ?_⟩
        simp [setCmdList, setCaller]
      · have hmem' : id' ∈ s.cmdLists c' := by
          by_cases hne : c' = c
          · subst hne
            simpa [hid'] using hmem
          · rwa [Function.update_of_ne hne] at hmem
        obtain ⟨hnext, hac, hout, hawaits⟩ := h.queued c' id' hmem'
        refine ⟨hnext, by simpa [hid'] using hac, hout, ?_⟩
        simpa [Awaits, setCmdList, setCaller, hid'] using hawaits
    · intro hconnected' c' hc'
      obtain rfl := Option.some.inj (hctx.symm.trans hc')
      have hlength := h.backlog hconnected c hctx
      have hcard : (census s.next (Function.update s.callers id .writing)
          (· = .writing)).card = s.writers.card + 1 :=
        card_census_join hid (by simp [hentered]) rfl
      dsimp only [writers, setCmdList, setCaller]
      rw [Function.update_self, hcard, List.length_append, List.length_singleton]
      omega
  · obtain rfl := Option.some.inj hstep
    exact h.leave hid hentered

theorem write (h : s.Counted capacity) {id : ℕ} (hstep : s.write capacity id = some s') :
    s'.Counted capacity := by
  simp only [Pipe.write, Option.ite_none_right_eq_some, Option.some.injEq] at hstep
  obtain ⟨⟨hid, hwriting⟩, rfl⟩ := hstep
  constructor
  · exact (inside_move hid (by simp [hwriting])).trans h.room
  · exact h.current
  · exact h.unopened
  · exact h.locked
  · exact h.undispatched_move (by simp)
  · exact h.nodup
  · intro c id' hmem
    obtain ⟨hnext, hac, hout, hawaits⟩ := h.queued c id' hmem
    refine ⟨hnext, hac, hout, ?_⟩
    by_cases hne : id' = id
    · subst hne
      simpa [Awaits, setCaller, hwriting] using hawaits
    · exact (awaits_move hne).mpr hawaits
  · intro hconnected c hc
    have hcard : (census s.next (Function.update s.callers id .waiting)
        (· = .writing)).card + 1 = s.writers.card :=
      card_census_leave hid hwriting (by simp)
    have hlength := h.backlog hconnected c hc
    -- A dropped byte is made up for by the bytes of the full pipe.
    have hinside := (h.length_le_inside c).trans h.room
    dsimp only [writers, setCaller]
    split <;> omega

theorem countDown (h : s.Counted capacity) {id : ℕ} (hstep : s.countDown id = some s') :
    s'.Counted capacity := by
  simp only [Pipe.countDown, Option.ite_none_right_eq_some, Option.some.injEq] at hstep
  obtain ⟨⟨hid, hwaiting⟩, rfl⟩ := hstep
  constructor
  · exact (inside_move hid (by simp [hwaiting])).trans h.room
  · exact h.current
  · exact h.unopened
  · exact h.locked
  · exact h.undispatched_move (by split <;> simp)
  · exact h.nodup
  · intro c id' hmem
    obtain ⟨hnext, hac, hout, hawaits⟩ := h.queued c id' hmem
    refine ⟨hnext, hac, hout, ?_⟩
    by_cases hne : id' = id
    · subst hne
      have htwo : s.reference id' = 2 := by simpa [Awaits, hwaiting] using hawaits
      exact .inr (by simp [setCaller, htwo])
    · simpa [Awaits, setCaller, hne] using hawaits
  · intro hconnected c hc
    have hwriters : (s.setCaller id
        (if s.reference id - 1 ≤ 0 then .returned else .searching)).writers = s.writers :=
      writers_move (by simp [hwaiting]) (by split <;> simp)
    exact (h.backlog hconnected c hc).trans (by rw [← hwriters]; rfl)

theorem search (h : s.Counted capacity) {id : ℕ} (hstep : s.search id = some s') :
    s'.Counted capacity := by
  simp only [Pipe.search, Option.ite_none_right_eq_some, Option.some.injEq] at hstep
  obtain ⟨⟨hid, hsearching⟩, rfl⟩ := hstep
  have hsub : ∀ c, ((s.setCaller id .returned).setCmdList (s.ac id)
      ((s.cmdLists (s.ac id)).erase id)).cmdLists c = (s.cmdLists c).erase id := by
    intro c
    dsimp only [setCmdList, setCaller]
    by_cases hc : c = s.ac id
    · rw [hc, Function.update_self]
    · rw [Function.update_of_ne hc, List.erase_of_not_mem]
      exact fun hmem ↦ hc (h.queued c id hmem).2.1.symm
  constructor
  · exact (inside_move hid (by simp [hsearching])).trans h.room
  · exact h.current
  · intro c hc
    rw [hsub, h.unopened c hc, List.erase_nil]
  · exact h.locked
  · exact h.undispatched_move (by simp)
  · intro c
    rw [hsub]
    exact (h.nodup c).erase id
  · intro c id' hmem
    rw [hsub] at hmem
    obtain ⟨hne, hmem⟩ := (h.nodup c).mem_erase_iff.mp hmem
    obtain ⟨hnext, hac, hout, hawaits⟩ := h.queued c id' hmem
    exact ⟨hnext, hac, hout, (awaits_move hne).mpr hawaits⟩
  · intro hconnected c hc
    rw [hsub]
    have hwriters : (s.setCaller id .returned).writers = s.writers :=
      writers_move (by simp [hsearching]) (by simp)
    apply ((s.cmdLists c).length_erase_le (a := id)).trans
    exact (h.backlog hconnected c hc).trans (by rw [← hwriters]; rfl)

theorem task (h : s.Counted capacity) {k : ℕ} (hstep : s.task k = some s') :
    s'.Counted capacity := by
  simp only [Pipe.task, Option.ite_none_right_eq_some] at hstep
  obtain ⟨hidle, hstep⟩ := hstep
  have hbacklog : ∀ c, s.connected = true → s.ctx = some c →
      (s.cmdLists c).length ≤ s.bytes + s.writers.card := by
    intro c hconnected hc
    simpa [hidle, TaskDeal.getNum] using h.backlog hconnected c hc
  split at hstep
  · obtain rfl := Option.some.inj hstep
    refine { h with locked := by simp, backlog := fun hconnected c hc ↦ ?_ }
    exact (hbacklog c hconnected hc).trans (Nat.le_add_right _ _)
  · rw [Option.ite_none_right_eq_some] at hstep
    obtain ⟨⟨hpos, hk, -⟩, hstep⟩ := hstep
    obtain rfl := Option.some.inj hstep
    refine { h with locked := by simp, backlog := fun hconnected c hc ↦ ?_ }
    have hlength := hbacklog c hconnected hc
    change (s.cmdLists c).length ≤ s.bytes - k + s.writers.card + k
    omega

theorem lock (h : s.Counted capacity) (hstep : s.lock = some s') : s'.Counted capacity := by
  unfold Pipe.lock at hstep
  split at hstep
  · rename_i getNum hloop
    split at hstep
    · rename_i hconnected
      obtain ⟨c, hc, rfl⟩ := Option.map_eq_some_iff.mp hstep
      refine { h with locked := fun c' getNum' hdealing ↦ ?_, backlog := ?_ }
      · obtain ⟨rfl, -⟩ := TaskDeal.dealing.inj hdealing
        exact ⟨hconnected, hc⟩
      · simpa [writers, hloop, TaskDeal.getNum] using h.backlog
    · rename_i hconnected
      obtain rfl := Option.some.inj hstep
      exact { h with locked := by simp, backlog := fun h' ↦ absurd h' hconnected }
  · simp at hstep

theorem take (h : s.Counted capacity) (hstep : s.take = some s') : s'.Counted capacity := by
  unfold Pipe.take at hstep
  split at hstep
  · rename_i c getNum hloop
    obtain ⟨hconnected, hctx⟩ := h.locked c getNum hloop
    have hlength := h.backlog hconnected c hctx
    rw [hloop, TaskDeal.getNum] at hlength
    split at hstep
    · rename_i hnil
      obtain rfl := Option.some.inj hstep
      refine { h with locked := by simp, backlog := fun _ c' hc' ↦ ?_ }
      obtain rfl := Option.some.inj (hctx.symm.trans hc')
      simp [hnil]
    · rename_i id rest hcons
      obtain rfl := Option.some.inj hstep
      have hnodup := h.nodup c
      rw [hcons, List.nodup_cons] at hnodup
      obtain ⟨-, hac, -, hawaits⟩ := h.queued c id (hcons ▸ List.mem_cons_self)
      have hlist : ∀ c', ∀ id' ∈ Function.update s.cmdLists c rest c',
          id' ∈ s.cmdLists c' ∧ id' ≠ id := by
        intro c' id' hmem
        by_cases hne : c' = c
        · subst hne
          rw [Function.update_self] at hmem
          refine ⟨hcons ▸ List.mem_cons_of_mem id hmem, ?_⟩
          rintro rfl
          exact hnodup.1 hmem
        · rw [Function.update_of_ne hne] at hmem
          refine ⟨hmem, ?_⟩
          rintro rfl
          exact hne ((h.queued c' id' hmem).2.1.symm.trans hac)
      constructor
      · exact h.room
      · exact h.current
      · intro c' hc'
        apply List.eq_nil_iff_forall_not_mem.mpr
        intro id' hmem
        have hmem' := (hlist c' id' hmem).1
        rw [h.unopened c' hc'] at hmem'
        exact List.not_mem_nil hmem'
      · intro c' getNum' hdealing
        dsimp only at hdealing
        split at hdealing
        · simp at hdealing
        · obtain ⟨rfl, -⟩ := TaskDeal.dealing.inj hdealing
          exact ⟨hconnected, hctx⟩
      · intro id' hid'
        have hne : id' ≠ id := by
          rintro rfl
          have hnext := (h.queued c id' (hcons ▸ List.mem_cons_self)).1
          rcases hid' with hle | hentered
          · exact absurd hnext (Nat.not_lt.mpr hle)
          · change s.callers id' = .entered at hentered
            simp [Awaits, hentered] at hawaits
        dsimp only [setCmdList]
        rw [Function.update_of_ne hne]
        exact h.undispatched id' hid'
      · intro c'
        dsimp only [setCmdList]
        by_cases hne : c' = c
        · rw [hne, Function.update_self]
          exact hnodup.2
        · rw [Function.update_of_ne hne]
          exact h.nodup c'
      · intro c' id' hmem
        obtain ⟨hmem, hne⟩ := hlist c' id' hmem
        obtain ⟨hnext, hac', hout, hawaits'⟩ := h.queued c' id' hmem
        refine ⟨hnext, hac', ?_, hawaits'⟩
        dsimp only [setCmdList]
        rwa [Function.update_of_ne hne]
      · intro _ c' hc'
        obtain rfl := Option.some.inj (hctx.symm.trans hc')
        dsimp only [setCmdList]
        rw [Function.update_self]
        rw [hcons, List.length_cons] at hlength
        change rest.length ≤ s.bytes + s.writers.card + _
        split
        · rw [TaskDeal.getNum]
          omega
        · rw [TaskDeal.getNum]
          omega
  · simp at hstep

theorem reply (h : s.Counted capacity) {id : ℕ} (hstep : s.reply id = some s') :
    s'.Counted capacity := by
  simp only [Pipe.reply, Option.ite_none_right_eq_some, Option.some.injEq] at hstep
  obtain ⟨⟨-, hdispatched⟩, rfl⟩ := hstep
  refine { h with queued := fun c id' hmem ↦ ?_ }
  obtain ⟨hnext, hac, hout, hawaits⟩ := h.queued c id' hmem
  refine ⟨hnext, hac, hout, ?_⟩
  have hne : id' ≠ id := by
    rintro rfl
    simp [hdispatched] at hout
  simpa [Awaits, hne] using hawaits

theorem disconnect (h : s.Counted capacity) {c : ℕ} (hstep : s.disconnect c = some s') :
    s'.Counted capacity := by
  simp only [Pipe.disconnect, Option.ite_none_right_eq_some, Option.some.injEq] at hstep
  obtain ⟨⟨hidle, hlink⟩, rfl⟩ := hstep
  have hlist : ∀ c', ∀ id ∈ Function.update s.cmdLists c [] c',
      c' ≠ c ∧ id ∈ s.cmdLists c' := by
    intro c' id hmem
    have hne : c' ≠ c := by
      rintro rfl
      simp at hmem
    rw [Function.update_of_ne hne] at hmem
    exact ⟨hne, hmem⟩
  constructor
  · exact h.room
  · simp [setCmdList]
  · intro c' hc'
    dsimp only [setCmdList] at hc' ⊢
    by_cases hne : c' = c
    · rw [hne, Function.update_self]
    · rw [Function.update_of_ne hne] at hc' ⊢
      exact h.unopened c' hc'
  · intro c' getNum hdealing
    simp [setCmdList, hidle] at hdealing
  · exact h.undispatched
  · intro c'
    dsimp only [setCmdList]
    by_cases hne : c' = c
    · rw [hne, Function.update_self]
      exact List.nodup_nil
    · rw [Function.update_of_ne hne]
      exact h.nodup c'
  · intro c' id hmem
    obtain ⟨hne, hmem⟩ := hlist c' id hmem
    obtain ⟨hnext, hac, hout, hawaits⟩ := h.queued c' id hmem
    refine ⟨hnext, hac, hout, ?_⟩
    have hnotmem : id ∉ s.cmdLists c :=
      fun hmem' ↦ hne (hac.symm.trans (h.queued c id hmem').2.1)
    simpa [Awaits, setCmdList, hnotmem] using hawaits
  · simp [setCmdList]

/-- The links change, and no context becomes one with commands. -/
theorem links (h : s.Counted capacity) {c : ℕ} (link : Link)
    (hfrom : s.links c = .unmade ∨ s.links c = .connecting) :
    ∀ c', Function.update s.links c link c' = .unmade ∨
      Function.update s.links c link c' = .connecting → s.cmdLists c' = [] := by
  intro c' hc'
  apply h.unopened
  by_cases hne : c' = c
  · exact hne ▸ hfrom
  · rwa [Function.update_of_ne hne] at hc'

theorem attempt (h : s.Counted capacity) (hdown : s.connected = false) {c : ℕ}
    (hstep : s.attempt c = some s') : s'.Counted capacity := by
  simp only [Pipe.attempt, Option.ite_none_right_eq_some, Option.some.injEq] at hstep
  obtain ⟨⟨hfree, hlink⟩, rfl⟩ := hstep
  refine { h with
    current := by simp [hdown]
    unopened := h.links _ (.inl hlink)
    locked := fun c' getNum hdealing ↦ ?_
    backlog := by simp [hdown] }
  exact absurd (h.locked c' getNum hdealing).1 (by simp [hdown])

theorem giveUp (h : s.Counted capacity) (hstep : s.giveUp = some s') : s'.Counted capacity := by
  simp only [Pipe.giveUp, Option.ite_none_right_eq_some, Option.some.injEq] at hstep
  obtain ⟨⟨hfree, hdown⟩, rfl⟩ := hstep
  refine { h with
    current := by simp [hdown]
    locked := fun c' getNum hdealing ↦ ?_
    backlog := by simp [hdown] }
  exact absurd (h.locked c' getNum hdealing).1 (by simp [hdown])

theorem connect (h : s.Counted capacity) {c : ℕ} (hassumed : s.connected = true ∨ s.ctx = some c)
    (hstep : s.connect c = some s') : s'.Counted capacity := by
  simp only [Pipe.connect, Option.ite_none_right_eq_some, Option.some.injEq] at hstep
  obtain ⟨⟨hidle, hlink⟩, rfl⟩ := hstep
  have hunopened := h.links .connected (.inr hlink)
  rcases hassumed with hconnected | hctx
  · -- A late connect of another context leaves the status as it is.
    refine { h with
      current := fun _ ↦ ?_
      unopened := hunopened
      locked := by simp [hidle]
      backlog := fun _ ↦ h.backlog hconnected }
    obtain ⟨c', hc', hlink'⟩ := h.current hconnected
    exact ⟨c', hc', by simp [Function.update_apply, hlink']⟩
  · refine { h with
      current := fun _ ↦ ⟨c, hctx, Function.update_self ..⟩
      unopened := hunopened
      locked := by simp [hidle]
      backlog := fun _ c' hc' ↦ ?_ }
    obtain rfl := Option.some.inj (hctx.symm.trans hc')
    simp [h.unopened c (.inr hlink)]

theorem fail (h : s.Counted capacity) {c : ℕ} (hstep : s.fail c = some s') :
    s'.Counted capacity := by
  simp only [Pipe.fail, Option.ite_none_right_eq_some, Option.some.injEq] at hstep
  obtain ⟨⟨hidle, hlink⟩, rfl⟩ := hstep
  refine { h with current := fun hconnected ↦ ?_, unopened := h.links _ (.inr hlink) }
  obtain ⟨c', hc', hlink'⟩ := h.current hconnected
  refine ⟨c', hc', ?_⟩
  have hne : c' ≠ c := by
    rintro rfl
    simp [hlink] at hlink'
  dsimp only
  rwa [Function.update_of_ne hne]

theorem step (h : s.Counted capacity) {a : Action} (hassumed : s.Assumed capacity a)
    (hstep : s.step capacity a = some s') : s'.Counted capacity := by
  cases a with
  | enter => exact h.enter hassumed hstep
  | refuse id => exact h.refuse hstep
  | enqueue id => exact h.enqueue hstep
  | write id => exact h.write hstep
  | countDown id => exact h.countDown hstep
  | search id => exact h.search hstep
  | task k => exact h.task hstep
  | lock => exact h.lock hstep
  | take => exact h.take hstep
  | reply id => exact h.reply hstep
  | disconnect c => exact h.disconnect hstep
  | attempt c => exact h.attempt hassumed hstep
  | giveUp => exact h.giveUp hstep
  | connect c => exact h.connect hassumed hstep
  | fail c => exact h.fail hstep

end Counted

theorem fresh_counted (capacity : ℕ) : fresh.Counted capacity := by
  constructor <;> simp [fresh, inside, census]

theorem assumed_counted {capacity : ℕ} {s : Pipe (List ℕ)}
    (h : (machine capacity).Reach (Assumed capacity) s) : s.Counted capacity := by
  refine h.invariant ?_ ?_
  · rintro s rfl
    exact fresh_counted capacity
  · intro s a s' hs hassumed hstep
    exact hs.step hassumed hstep

/-- In every run with at most `capacity` callers inside, the commands that wait
for `taskDeal` are no more than the wake-ups that are on their way. -/
theorem assumed_roused {capacity : ℕ} {s : Pipe (List ℕ)}
    (h : (machine capacity).Reach (Assumed capacity) s) : s.Roused :=
  (assumed_counted h).roused

end Pipe

end MuxHiredis
