import MuxHiredis.Mux.Posted
import MuxHiredis.Mux.Removal

/-!
# Who sleeps in vain

Here `cmd_list` is the linked list of `list.c`.  A caller whose wait is over searches it
and deletes its node there without `xc->mutex`, statement by statement, and the loops of
`disconnectedCallback` and `__redisAsyncFree` keep the node that they come to next.
-/

namespace MuxHiredis

open Adlist

open Doubly (Reaches)

open Removal (Stands contents listAddNodeTail_nodes listSearchKey_nodes listDelNode_nodes)

/-- The event loop is in the loop of `disconnectedCallback` or of `__redisAsyncFree` over
`cmd_list`. -/
def LoopAt.sweeps : LoopAt → Bool
  | .clearing | .dropping _ | .scrapping => true
  | .replying _ _ .clearing | .writing _ _ .clearing | .posting _ .clearing => true
  | .destroying _ .clearing | .freeing _ .clearing => true
  | _ => false

/-- Where a caller stands in `__xRedisCommand` that is in `listSearchKey` or `listDelNode`. -/
def Removal.pc : Removal → CallerAt
  | .idle | .looking => .searching
  | .found _ | .forward _ | .backward _ => .withdrawing

theorem Removal.Of.severed {removal : Removal} {id a : ℕ} (hof : removal.Of id)
    (h : removal.severed = some a) : a = id ∧ removal.pc = .withdrawing := by
  cases removal with
  | idle | looking | found node => simp [Removal.severed] at h
  | forward node | backward node =>
      obtain rfl : node = id := hof
      obtain rfl : node = a := Option.some.inj h
      exact ⟨rfl, rfl⟩

/-- The connection with its list in the heap; the list in `sharing` stays empty.  A node
goes by the number of its record.  `inside` has the callers that are in `listSearchKey` or
`listDelNode`, and `next` is the node that a loop over the list comes to next. -/
structure LinkedSharing where
  sharing : Sharing
  heap : Adlist.Heap ℕ
  list : AdList ℕ
  removals : ℕ → Removal
  inside : List ℕ
  next : Option ℕ

namespace Sharing

/-- The same connection with another `cmd_list`. -/
def withList (s : Sharing) (l : List ℕ) : Sharing := { s with cmdList := l }

variable {s s' : Sharing} {ci : ℕ} {a : Action}

section Fields

variable (s : Sharing) (l : List ℕ)

@[simp] theorem withList_cmdList : (s.withList l).cmdList = l := rfl

@[simp] theorem withList_records : (s.withList l).records = s.records := rfl

@[simp] theorem withList_loop : (s.withList l).loop = s.loop := rfl

@[simp] theorem withList_ac : (s.withList l).ac = s.ac := rfl

@[simp] theorem withList_cb : (s.withList l).cb = s.cb := rfl

end Fields

/-- A caller that does not come to the list does not look at it either. -/
theorem stepCaller_withList (s : Sharing) (l : List ℕ) (hadding : (s.records ci).pc ≠ .adding)
    (hsearching : (s.records ci).pc ≠ .searching)
    (hwithdrawing : (s.records ci).pc ≠ .withdrawing) :
    (s.withList l).stepCaller ci = (s.stepCaller ci).map (·.withList l) := by
  unfold stepCaller
  cases hpc : (s.records ci).pc <;> simp only [withList_records, hpc]
  case adding => exact absurd hpc hadding
  case searching => exact absurd hpc hsearching
  case withdrawing => exact absurd hpc hwithdrawing
  case created | locked =>
      rw [apply_ite (Option.map (withList · l))]
      rfl
  all_goals rfl

theorem runCallback_withList (s : Sharing) (l : List ℕ) (cb : RedisCallback) (reply : Bool)
    (next : Resume) :
    (s.withList l).runCallback cb reply next = (s.runCallback cb reply next).withList l := by
  unfold runCallback
  cases cb.fn <;> rfl

/-- Nor does the event loop elsewhere. -/
theorem stepLoop_withList (s : Sharing) (l : List ℕ) (htasking : ∀ num, s.loop ≠ .tasking (num + 1))
    (hclearing : s.loop ≠ .clearing) (hscrapping : s.loop ≠ .scrapping) :
    (s.withList l).stepLoop = s.stepLoop.map (·.withList l) := by
  unfold stepLoop
  cases hloop : s.loop <;> simp only [withList_loop, hloop]
  case clearing => exact absurd hloop hclearing
  case scrapping => exact absurd hloop hscrapping
  case tasking num =>
      cases num with
      | zero => rfl
      | succ num => exact absurd hloop (htasking num)
  case issuing ci num =>
      simp only [withList_ac, withList_records]
      rcases s.ac.asyncCommand (some 0) ci (s.records ci).cmd with _ | ⟨status, ac⟩
      · rfl
      · cases status <;> rfl
  case ending =>
      simp only [withList_ac]
      cases nextPending s.ac with
      | none =>
          simp only
          rw [apply_ite (Option.map (withList · l)), apply_ite (Option.map (withList · l))]
          rfl
      | some p => exact congrArg some (runCallback_withList { s with ac := p.2 } l _ _ _)
  all_goals rfl

theorem whenIdle_withList (s : Sharing) (l : List ℕ) (t : Option Sharing) :
    (s.withList l).whenIdle (t.map (·.withList l)) = (s.whenIdle t).map (·.withList l) := by
  unfold whenIdle
  rw [apply_ite (Option.map (withList · l))]
  rfl

theorem step_withList (s : Sharing) (l : List ℕ) (hcaller : ∀ ci, a ≠ .caller ci)
    (hloop : a ≠ .loop) : (s.withList l).step a = (s.step a).map (·.withList l) := by
  cases a with
  | call ci cmd =>
      unfold step
      rw [apply_ite (Option.map (withList · l))]
      rfl
  | caller ci => exact absurd rfl (hcaller ci)
  | context hasCtx =>
      unfold step
      rw [apply_ite (Option.map (withList · l))]
      rfl
  | task num =>
      unfold step
      rw [← whenIdle_withList, apply_ite (Option.map (withList · l)),
        apply_ite (Option.map (withList · l))]
      rfl
  | read reply =>
      simp only [step, ← whenIdle_withList, withList_ac, withList_cb]
      cases s.ac.pickCallback s.cb reply with
      | none => rfl
      | some picked =>
          cases picked with
          | run cb ac =>
              have hrun := runCallback_withList { s with ac := ac, cb := cb } l cb true .replies
              exact congrArg ((s.withList l).whenIdle <| some ·) hrun
          | disconnect ac => rfl
  | endCall =>
      unfold step
      rw [← whenIdle_withList]
      rfl
  | close err =>
      unfold step
      rw [← whenIdle_withList, apply_ite (Option.map (withList · l))]
      rfl
  | free =>
      unfold step
      rw [← whenIdle_withList]
      rfl
  | loop => exact absurd rfl hloop

theorem LoopStep.sweeps (h : s.LoopStep s') (hsweeps : s'.loop.sweeps = true) :
    s.loop.sweeps = true ∨ s.loop = .ending ∨ s.loop = .unlocking := by
  cases h with
  | take => exact absurd hsweeps (by simp [LoopAt.sweeps])
  | taken => exact absurd hsweeps (by simp [LoopAt.sweeps])
  | issue => exact absurd hsweeps (by simp [LoopAt.sweeps])
  | @reply ci reply next hl =>
      rw [hl]
      cases next with
      | clearing => exact .inl rfl
      | replies | ending =>
          dsimp only at hsweeps
          split at hsweeps <;> exact absurd hsweeps (by simp [LoopAt.sweeps])
  | @write ci reply next hl =>
      rw [hl]
      cases next with
      | clearing => exact .inl rfl
      | replies | ending => exact absurd hsweeps (by simp [LoopAt.sweeps])
  | @post ci next hl | @destroy ci next hl | @free ci next hl =>
      rw [hl]
      cases next with
      | clearing => exact .inl rfl
      | replies | ending => exact absurd hsweeps (by simp [LoopAt.sweeps, Resume.at])
  | pending hl => exact .inr (.inl hl)
  | lose hl => exact .inr (.inl hl)
  | leave hl => exact .inr (.inl hl)
  | clear hl => exact .inl (by rw [hl]; rfl)
  | cleared hl => exact .inl (by rw [hl]; rfl)
  | drop hl => exact .inl (by rw [hl]; rfl)
  | unlock hl => exact .inr (.inr hl)
  | scrap hl => exact .inl (by rw [hl]; rfl)
  | scrapped hl => exact .inl (by rw [hl]; rfl)

theorem runCallback_sweeps (s : Sharing) (cb : RedisCallback) (reply : Bool) {next : Resume}
    (hnext : next ≠ .clearing) : (s.runCallback cb reply next).loop.sweeps = false := by
  unfold runCallback
  cases next with
  | clearing => exact absurd rfl hnext
  | replies | ending => cases cb.fn <;> rfl

/-- Only the event loop begins to go over the list, and only from two places. -/
theorem step_sweeps (hstep : s.step a = some s') (hsweeps : s'.loop.sweeps = true) :
    s.loop.sweeps = true ∨ a = .loop ∧ (s.loop = .ending ∨ s.loop = .unlocking) := by
  cases step_cases hstep with
  | call => exact .inl hsweeps
  | caller hcaller => exact .inl ((stepCaller_cases hcaller).loop ▸ hsweeps)
  | context => exact .inl hsweeps
  | task => exact absurd hsweeps (by simp [LoopAt.sweeps])
  | taskLost => exact .inl hsweeps
  | @read reply cb ac hidle hpick =>
      exact absurd hsweeps (by simp [runCallback_sweeps])
  | readError => exact absurd hsweeps (by simp [LoopAt.sweeps])
  | endCall => exact .inl hsweeps
  | close => exact absurd hsweeps (by simp [LoopAt.sweeps])
  | free => exact absurd hsweeps (by simp [LoopAt.sweeps])
  | loop hloop => exact ((loopStep_cases hloop).sweeps hsweeps).imp_right (⟨rfl, ·⟩)

end Sharing

namespace LinkedSharing

open Sharing (Action)

/-- A step that touches no list. -/
def plainly (s : LinkedSharing) (t : Option Sharing) : Option LinkedSharing :=
  t.map fun t ↦ { s with sharing := t }

/-- The caller goes on with its node. -/
def move (s : LinkedSharing) (ci : ℕ) (removal : Removal) : LinkedSharing :=
  { s with removals := Function.update s.removals ci removal }

/-- The caller is done with the list. -/
def leave (s : LinkedSharing) (ci : ℕ) (r : CmdRecord) : LinkedSharing :=
  { s.move ci .idle with sharing := s.sharing.update ci r, inside := s.inside.erase ci }

def withNodes (s : LinkedSharing) (l : Adlist.Heap ℕ × AdList ℕ) : LinkedSharing :=
  { s with heap := l.1, list := l.2 }

/-- `listAddNodeTail`, under `xc->mutex`. -/
def add (s : LinkedSharing) (ci : ℕ) : Option LinkedSharing :=
  (listAddNodeTail s.heap s.list ci (some ci)).map fun l ↦
    { s with
      sharing := s.sharing.update ci (((s.sharing.records ci).put .queued).goto .added)
      heap := l.1
      list := l.2.1 }

/-- `listSearchKey`: its beginning and its end. -/
def search (s : LinkedSharing) (ci : ℕ) : Option LinkedSharing :=
  match s.removals ci with
  | .idle => some { s.move ci .looking with inside := ci :: s.inside }
  | .looking =>
      (listSearchKey s.heap s.list ci).map fun
        | none => s.leave ci ((s.sharing.records ci).goto .checking)
        | some node =>
            { s.move ci (.found node) with
              sharing := s.sharing.update ci ((s.sharing.records ci).goto .withdrawing) }
  | _ => none

/-- `listDelNode` -/
def delete (s : LinkedSharing) (ci : ℕ) : Option LinkedSharing :=
  match s.removals ci with
  | .found node =>
      (delForward s.heap s.list node).map ((s.move ci (.forward node)).withNodes ·)
  | .forward node =>
      (delBackward s.heap s.list node).map ((s.move ci (.backward node)).withNodes ·)
  | .backward node =>
      (delFree s.heap s.list node).map
        ((s.leave ci (((s.sharing.records ci).put .withdrawn).goto .checking)).withNodes ·)
  | _ => none

def stepCaller (s : LinkedSharing) (ci : ℕ) : Option LinkedSharing :=
  match (s.sharing.records ci).pc with
  | .adding => s.add ci
  | .searching => s.search ci
  | .withdrawing => s.delete ci
  | _ => s.plainly (s.sharing.stepCaller ci)

/-- The event loop takes a node from the list, with its record. -/
def take (s : LinkedSharing) (node : ℕ) (f : ℕ → Sharing) : Option LinkedSharing :=
  (s.heap.nodes node).bind fun cell ↦ (listDelNode s.heap s.list node).map fun l ↦
    { s with sharing := f cell.value, heap := l.1, list := l.2, next := cell.next }

/-- The next round of the loop of `taskDeal`. -/
def takeTask (s : LinkedSharing) (num : ℕ) : Option LinkedSharing :=
  let done := { s with sharing := { s.sharing with mutex := none, loop := .idle } }
  if s.list.len = 0 then some done
  else
    match s.list.head with
    | none => some done
    | some node =>
        s.take node fun ci ↦
          { s.sharing.update ci ((s.sharing.records ci).put .issuing) with loop := .issuing ci num }

/-- The next round of a loop over the list. -/
def takeNext (s : LinkedSharing) (f : ℕ → Sharing) (last : Sharing) : Option LinkedSharing :=
  match s.next with
  | none => some { s with sharing := last }
  | some node => s.take node f

def stepLoop (s : LinkedSharing) : Option LinkedSharing :=
  match s.sharing.loop with
  | .tasking (num + 1) => s.takeTask num
  | .clearing =>
      s.takeNext
        (fun ci ↦
          { s.sharing.update ci ((s.sharing.records ci).put .taken) with loop := .dropping ci })
        { s.sharing with connected := false, loop := .unlocking }
  | .scrapping =>
      s.takeNext (fun ci ↦ s.sharing.update ci ((s.sharing.records ci).free.put .scrapped))
        { s.sharing with loop := .finished }
  -- A loop over the list may begin.
  | .ending | .unlocking =>
      (s.plainly s.sharing.stepLoop).map fun s ↦
        { s with next := if s.sharing.loop.sweeps then s.list.head else s.next }
  | _ => s.plainly s.sharing.stepLoop

def step (s : LinkedSharing) : Action → Option LinkedSharing
  | .caller ci => s.stepCaller ci
  | .loop => s.stepLoop
  | a => s.plainly (s.sharing.step a)

def fresh : LinkedSharing where
  sharing := .fresh
  heap := ⟨fun _ ↦ none, []⟩
  list := .empty
  removals := fun _ ↦ .idle
  inside := []
  next := none

def machine : Machine LinkedSharing Action := ⟨(· = fresh), step⟩

/-- The event loop can still come to the record. -/
def Answerable (s : LinkedSharing) (ci : ℕ) : Prop :=
  Reaches s.heap.nodes ci s.list.head ∨ s.sharing.ac.Holds ci ∨
    (s.sharing.loop.work ci).serves = true

/-- No caller sleeps on a record that nothing can answer any more. -/
def Awake (s : LinkedSharing) : Prop :=
  ∀ ci, (s.sharing.records ci).pc = .waiting → ¬s.Answerable ci →
    0 < (s.sharing.records ci).posts

/-- The next step of the event loop uses the list. -/
def ComesToList (s : LinkedSharing) : LoopAt → Prop
  | .tasking (_ + 1) | .clearing | .unlocking | .scrapping => True
  | .ending => Sharing.nextPending s.sharing.ac = none
  | _ => False

instance (s : LinkedSharing) : DecidablePred s.ComesToList
  | .tasking (_ + 1) | .clearing | .unlocking | .scrapping => .isTrue trivial
  | .ending => inferInstanceAs (Decidable (_ = none))
  | .idle | .tasking 0 | .issuing .. | .replying .. | .writing .. | .posting .. | .destroying ..
  | .freeing .. | .dropping _ | .finished => .isFalse id

/-- Nobody else is at the list, which is there. -/
def Quiet (s : LinkedSharing) : Prop :=
  s.inside = [] ∧ s.sharing.loop.sweeps = false ∧ s.sharing.loop ≠ .finished

instance : DecidablePred Quiet := fun _ ↦ inferInstanceAs (Decidable (_ ∧ _ ∧ _))

def CallerApart (s : LinkedSharing) (ci : ℕ) : CallerAt → Prop
  | .adding => s.Quiet
  | .searching => s.removals ci = .idle → s.Quiet
  | _ => True

instance (s : LinkedSharing) (ci : ℕ) : DecidablePred (s.CallerApart ci)
  | .adding => inferInstanceAs (Decidable s.Quiet)
  | .searching => inferInstanceAs (Decidable (_ → s.Quiet))
  | .absent | .created | .locked | .noContext | .counted | .refused | .refusedFreeing
  | .refusedFreed | .added | .looking | .waiting | .reading | .dropping | .destroying | .freeing
  | .withdrawing | .checking | .done => .isTrue trivial

/-- While a caller is in `listSearchKey` and `listDelNode`, no one else comes to the list;
and while a loop goes over the list and after it, nobody appends to it or searches it. -/
def Apart (s : LinkedSharing) : Action → Prop
  | .caller ci => s.CallerApart ci (s.sharing.records ci).pc
  | .loop => s.ComesToList s.sharing.loop → s.inside = []
  | _ => True

instance (s : LinkedSharing) : DecidablePred s.Apart
  | .caller ci => inferInstanceAs (Decidable (s.CallerApart ci _))
  | .loop => inferInstanceAs (Decidable (_ → _ = []))
  | .call _ _ | .context _ | .task _ | .read _ | .endCall | .close _ | .free => .isTrue trivial

def LoopHeeds (s : LinkedSharing) : LoopAt → Prop
  | .scrapping =>
      ∀ node ∈ s.next, ∀ cell ∈ s.heap.nodes node, ¬(s.sharing.records cell.value).Unmet
  | l => s.sharing.LoopHeeds l

instance (s : LinkedSharing) : DecidablePred s.LoopHeeds
  | .scrapping => inferInstanceAs (Decidable (∀ node ∈ s.next, ∀ cell ∈ s.heap.nodes node, ¬_))
  | .issuing ci num => inferInstanceAs (Decidable (s.sharing.LoopHeeds (.issuing ci num)))
  | .dropping ci => inferInstanceAs (Decidable (s.sharing.LoopHeeds (.dropping ci)))
  | .idle | .tasking _ | .replying .. | .writing .. | .posting .. | .destroying .. | .freeing ..
  | .ending | .clearing | .unlocking | .finished => .isTrue trivial

/-- The condition on what the event loop does with the records: see `Sharing.Heeded`. -/
def Heeded (s : LinkedSharing) : Action → Prop
  | .loop => s.LoopHeeds s.sharing.loop
  | _ => True

instance (s : LinkedSharing) : DecidablePred s.Heeded
  | .loop => inferInstanceAs (Decidable (s.LoopHeeds _))
  | .call _ _ | .caller _ | .context _ | .task _ | .read _ | .endCall | .close _ | .free =>
      .isTrue trivial

/-! ## The plain list behind the linked one -/

/-- The list has the records `l`, and at most one caller is deleting its node from it. -/
def ListAt (s : LinkedSharing) (l : List ℕ) : Prop :=
  s.inside = [] ∧ (∀ ci, s.removals ci = .idle) ∧ Stands s.heap s.list l .idle ∨
    ∃ ci, s.inside = [ci] ∧ (∀ cj ≠ ci, s.removals cj = .idle) ∧ (s.removals ci).Of ci ∧
      (s.sharing.records ci).pc = (s.removals ci).pc ∧ Stands s.heap s.list l (s.removals ci)

/-- `cmd_list` has the records `l`, and a loop over it comes to the first one next. -/
structure Shows (s : LinkedSharing) (l : List ℕ) : Prop where
  list : s.ListAt l
  next : s.sharing.loop.sweeps = true → s.inside = [] ∧ s.next = l.head?
  unused : ∀ ci, (s.sharing.records ci).pc.early = true → s.heap.nodes ci = none

namespace Shows

variable {s s' : LinkedSharing} {l l' : List ℕ} {ci : ℕ} {a : Action} {t : Sharing}
  {removal : Removal} {heap : Adlist.Heap ℕ} {list : AdList ℕ}

theorem whole (h : s.Shows l) (hinside : s.inside = []) :
    (∀ ci, s.removals ci = .idle) ∧ Stands s.heap s.list l .idle := by
  rcases h.list with ⟨-, hwhole⟩ | ⟨ci, hci, -⟩
  · exact hwhole
  · simp [hinside] at hci

theorem busy (h : s.Shows l) (hat : s.removals ci ≠ .idle) :
    s.inside = [ci] ∧ (∀ cj ≠ ci, s.removals cj = .idle) ∧ (s.removals ci).Of ci ∧
      (s.sharing.records ci).pc = (s.removals ci).pc ∧
      Stands s.heap s.list l (s.removals ci) := by
  rcases h.list with ⟨-, hidle, -⟩ | ⟨cj, hinside, hothers, hrest⟩
  · exact absurd (hidle ci) hat
  · obtain rfl : ci = cj := by
      by_contra hne
      exact hat (hothers ci hne)
    exact ⟨hinside, hothers, hrest⟩

theorem stands (h : s.Shows l) : ∃ removal, Stands s.heap s.list l removal := by
  rcases h.list with ⟨-, -, hs⟩ | ⟨ci, -, -, -, -, hs⟩
  · exact ⟨_, hs⟩
  · exact ⟨_, hs⟩

theorem nodup (h : s.Shows l) : l.Nodup := by
  obtain ⟨removal, hs⟩ := h.stands
  exact hs.nodup

/-- A record that nobody has put into the list yet. -/
theorem notMem (h : s.Shows l) (hearly : (s.sharing.records ci).pc.early = true) : ci ∉ l := by
  obtain ⟨removal, hs⟩ := h.stands
  exact fun hmem ↦ hs.allocated hmem (h.unused ci hearly)

/-- No loop goes over the list while a caller is there. -/
theorem still (h : s.Shows l) (hat : s.removals ci ≠ .idle) : s.sharing.loop.sweeps ≠ true := by
  intro hsweeps
  have hinside := (h.next hsweeps).1
  simp [(h.busy hat).1] at hinside

/-- A step that touches no list. -/
theorem plain (h : s.Shows l) {next : Option ℕ}
    (hstep : (s.sharing.withList l).step a = some (t.withList l))
    (hcaller : ∀ ci, a = .caller ci → ∀ removal : Removal, (s.sharing.records ci).pc ≠ removal.pc)
    (hnext : t.loop.sweeps = true → s.inside = [] ∧ next = l.head?) :
    ({ s with sharing := t, next := next } : LinkedSharing).Shows l := by
  have hmove := Sharing.step_move h.nodup hstep
  refine ⟨?_, hnext, fun ci hearly ↦ h.unused ci ((hmove ci).early hearly)⟩
  rcases h.list with hwhole | ⟨ci, hinside, hothers, hof, hpc, hs⟩
  · exact .inl hwhole
  · refine .inr ⟨ci, hinside, hothers, hof, ((hmove ci).pc_eq ?_ ?_).trans hpc, hs⟩
    · rintro rfl
      exact hcaller ci rfl _ hpc
    · change (s.sharing.records ci).pc ≠ .absent
      rw [hpc]
      cases s.removals ci <;> simp [Removal.pc]

/-- The caller goes on, and its node is still in the list. -/
theorem remains (h : s.Shows l) (hat : s.removals ci ≠ .idle) (hof : removal.Of ci)
    (hloop : t.loop = s.sharing.loop) (hrecords : ∀ cj ≠ ci, t.records cj = s.sharing.records cj)
    (hpc : (t.records ci).pc = removal.pc) (hs : Stands heap list l removal)
    (hframe : ∀ a ∉ l, heap.nodes a = s.heap.nodes a) :
    ({ s.move ci removal with sharing := t, heap := heap, list := list } : LinkedSharing).Shows
      l := by
  obtain ⟨hinside, hothers, -⟩ := h.busy hat
  have hself : (s.move ci removal).removals ci = removal := Function.update_self ..
  refine ⟨.inr ⟨ci, hinside, fun cj hne ↦ ?_, hself.symm ▸ hof, hself.symm ▸ hpc,
    hself.symm ▸ hs⟩, fun hsweeps ↦ ?_, fun cj hearly ↦ ?_⟩
  · exact (Function.update_of_ne hne ..).trans (hothers cj hne)
  · exact absurd (hloop ▸ hsweeps) (h.still hat)
  · have hne : cj ≠ ci := by
      rintro rfl
      change (t.records cj).pc.early = true at hearly
      rw [hpc] at hearly
      cases removal <;> simp [Removal.pc, CallerAt.early] at hearly
    change (t.records cj).pc.early = true at hearly
    rw [hrecords cj hne] at hearly
    exact (hframe cj (h.notMem hearly)).trans (h.unused cj hearly)

/-- The caller is done with the list. -/
theorem leaves (h : s.Shows l) (hat : s.removals ci ≠ .idle) {r : CmdRecord}
    (hr : r.pc.early ≠ true) (hs : Stands heap list l' .idle)
    (hframe : ∀ a ∉ l, heap.nodes a = s.heap.nodes a) :
    ((s.leave ci r).withNodes (heap, list)).Shows l' := by
  obtain ⟨hinside, hothers, -⟩ := h.busy hat
  refine ⟨.inl ⟨?_, fun cj ↦ ?_, hs⟩, fun hsweeps ↦ absurd hsweeps (h.still hat),
    fun cj hearly ↦ ?_⟩
  · change s.inside.erase ci = []
    rw [hinside, List.erase_cons_head]
  · by_cases hne : cj = ci
    · exact hne ▸ Function.update_self ..
    · exact (Function.update_of_ne hne ..).trans (hothers cj hne)
  · have hne : cj ≠ ci := by
      rintro rfl
      change (Function.update s.sharing.records cj r cj).pc.early = true at hearly
      rw [Function.update_self] at hearly
      exact hr hearly
    change (Function.update s.sharing.records ci r cj).pc.early = true at hearly
    rw [Function.update_of_ne hne] at hearly
    exact (hframe cj (h.notMem hearly)).trans (h.unused cj hearly)

/-- The event loop takes the first record. -/
theorem takes (h : s.Shows (ci :: l)) (hinside : s.inside = []) {f : ℕ → Sharing} {r : CmdRecord}
    (hstep : s.take ci f = some s')
    (hrecords : (f ci).records = Function.update s.sharing.records ci r)
    (hpc : r.pc = (s.sharing.records ci).pc) : s'.sharing = f ci ∧ s'.Shows l := by
  obtain ⟨hidle, hlist, hheld⟩ := h.whole hinside
  obtain ⟨⟨cell, hcell, hvalue, hnext⟩, h', hdel, hheld', hframe⟩ := listDelNode_nodes hheld
  unfold take at hstep
  rw [hcell, Option.bind_some, hlist, hdel, Option.map_some] at hstep
  obtain rfl := Option.some.inj hstep
  refine ⟨congrArg f hvalue, .inl ⟨hinside, hidle, rfl, hheld'⟩, fun _ ↦ ⟨hinside, ?_⟩,
    fun cj hearly ↦ ?_⟩
  · exact hnext.trans (Removal.head_contents l)
  · change ((f cell.value).records cj).pc.early = true at hearly
    have hbefore : (s.sharing.records cj).pc.early = true := by
      rw [hvalue, hrecords] at hearly
      by_cases hne : cj = ci
      · subst hne
        rwa [Function.update_self, hpc] at hearly
      · rwa [Function.update_of_ne hne] at hearly
    exact (hframe cj (h.notMem hbefore)).trans (h.unused cj hbefore)

/-! The steps of a caller that comes to the list. -/

theorem add (h : s.Shows l) (hpc : (s.sharing.records ci).pc = .adding) (hquiet : s.Quiet)
    (hstep : s.add ci = some s') : s'.Shows (l ++ [ci]) ∧
      (s.sharing.withList l).stepCaller ci = some (s'.sharing.withList (l ++ [ci])) := by
  obtain ⟨hinside, hsweeps, -⟩ := hquiet
  obtain ⟨hidle, hlist, hheld⟩ := h.whole hinside
  have hearly : (s.sharing.records ci).pc.early = true := by
    rw [hpc]
    rfl
  obtain ⟨h', hadd, hheld', hframe⟩ := listAddNodeTail_nodes hheld (h.unused ci hearly)
  unfold LinkedSharing.add at hstep
  rw [hlist, hadd, Option.map_some] at hstep
  obtain rfl := Option.some.inj hstep
  refine ⟨⟨.inl ⟨hinside, hidle, rfl, hheld'⟩, fun hsweeps' ↦ ?_, fun cj hearly' ↦ ?_⟩, ?_⟩
  · exact absurd hsweeps' (by simp [Sharing.update, hsweeps])
  · have hne : cj ≠ ci := by
      rintro rfl
      simp [Sharing.update, CmdRecord.goto, CallerAt.early] at hearly'
    have hbefore : (s.sharing.records cj).pc.early = true := by
      simpa [Sharing.update, hne] using hearly'
    exact (hframe cj (h.notMem hbefore) hne).trans (h.unused cj hbefore)
  · simp only [Sharing.stepCaller, Sharing.withList_records, hpc]
    rfl

theorem search (h : s.Shows l) (hpc : (s.sharing.records ci).pc = .searching)
    (hquiet : s.removals ci = .idle → s.Quiet) (hstep : s.search ci = some s') :
    s'.Shows l ∧ (s'.sharing = s.sharing ∨
      (s.sharing.withList l).stepCaller ci = some (s'.sharing.withList l)) := by
  unfold LinkedSharing.search at hstep
  split at hstep
  · rename_i hidle
    obtain ⟨hinside, hsweeps, -⟩ := hquiet hidle
    obtain ⟨hothers, hs⟩ := h.whole hinside
    obtain rfl := Option.some.inj hstep
    have hself : (s.move ci .looking).removals ci = .looking := Function.update_self ..
    refine ⟨⟨.inr ⟨ci, by simp [hinside], fun cj hne ↦ ?_, ?_, ?_, ?_⟩, fun hsweeps' ↦ ?_,
      h.unused⟩, .inl rfl⟩
    · exact (Function.update_of_ne hne ..).trans (hothers cj)
    · exact hself.symm ▸ trivial
    · exact hself.symm ▸ hpc
    · exact hself.symm ▸ hs
    · exact absurd hsweeps' (by simp [move, hsweeps])
  · rename_i hlooking
    have hat : s.removals ci ≠ .idle := by simp [hlooking]
    obtain ⟨-, -, -, -, hs⟩ := h.busy hat
    rw [hlooking] at hs
    obtain ⟨hlist, hheld⟩ := hs
    rw [hlist, listSearchKey_nodes hheld, Option.map_some, Option.some.injEq] at hstep
    by_cases hmem : ci ∈ l
    · rw [if_pos hmem] at hstep
      subst hstep
      refine ⟨h.remains hat rfl rfl (fun cj hne ↦ Function.update_of_ne hne ..) ?_
        ⟨hlist, hheld, hmem⟩ fun _ _ ↦ rfl, .inr ?_⟩
      · simp [Sharing.update, CmdRecord.goto, Removal.pc]
      · simp only [Sharing.stepCaller, Sharing.withList_records, Sharing.withList_cmdList, hpc, hmem,
          if_true]
        rfl
    · rw [if_neg hmem] at hstep
      subst hstep
      refine ⟨h.leaves hat (by simp [CmdRecord.goto, CallerAt.early]) ⟨hlist, hheld⟩
        fun _ _ ↦ rfl, .inr ?_⟩
      simp only [Sharing.stepCaller, Sharing.withList_records, Sharing.withList_cmdList, hpc, hmem,
        if_false]
      rfl
  · simp at hstep

theorem delete (h : s.Shows l) (hpc : (s.sharing.records ci).pc = .withdrawing)
    (hstep : s.delete ci = some s') : s'.Shows l ∧ s'.sharing = s.sharing ∨
      s'.Shows (l.erase ci) ∧
        (s.sharing.withList l).stepCaller ci = some (s'.sharing.withList (l.erase ci)) := by
  unfold LinkedSharing.delete at hstep
  split at hstep
  · rename_i node hfound
    have hat : s.removals ci ≠ .idle := by simp [hfound]
    obtain ⟨-, -, hof, -, hs⟩ := h.busy hat
    rw [hfound] at hof hs
    obtain rfl : node = ci := hof
    obtain ⟨h', list', hdel, hs', hframe⟩ := hs.delForward
    rw [hdel] at hstep
    obtain rfl := Option.some.inj hstep
    exact .inl ⟨h.remains hat rfl rfl (fun _ _ ↦ rfl) hpc hs' hframe, rfl⟩
  · rename_i node hforward
    have hat : s.removals ci ≠ .idle := by simp [hforward]
    obtain ⟨-, -, hof, -, hs⟩ := h.busy hat
    rw [hforward] at hof hs
    obtain rfl : node = ci := hof
    obtain ⟨h', list', hdel, hs', hframe⟩ := hs.delBackward
    rw [hdel] at hstep
    obtain rfl := Option.some.inj hstep
    exact .inl ⟨h.remains hat rfl rfl (fun _ _ ↦ rfl) hpc hs' hframe, rfl⟩
  · rename_i node hbackward
    have hat : s.removals ci ≠ .idle := by simp [hbackward]
    obtain ⟨-, -, hof, -, hs⟩ := h.busy hat
    rw [hbackward] at hof hs
    obtain rfl : node = ci := hof
    have hmem : node ∈ l := by
      obtain ⟨L, R, rfl, -⟩ := hs
      simp
    obtain ⟨h', list', hdel, hs', hframe⟩ := hs.delFree
    rw [hdel] at hstep
    obtain rfl := Option.some.inj hstep
    refine .inr ⟨h.leaves hat (by simp [CmdRecord.goto, CallerAt.early]) hs' hframe, ?_⟩
    simp only [Sharing.stepCaller, Sharing.withList_records, Sharing.withList_cmdList, hpc, hmem,
      if_true]
    rfl
  · simp at hstep

theorem plainly (h : s.Shows l) {t : Option Sharing}
    (hwith : (s.sharing.withList l).step a = t.map (·.withList l))
    (hcaller : ∀ ci, a = .caller ci → ∀ removal : Removal, (s.sharing.records ci).pc ≠ removal.pc)
    (hloop : a = .loop → s.sharing.loop ≠ .ending ∧ s.sharing.loop ≠ .unlocking)
    (hstep : s.plainly t = some s') :
    s'.Shows l ∧ (s.sharing.withList l).step a = some (s'.sharing.withList l) := by
  obtain ⟨t, rfl, rfl⟩ := Option.map_eq_some_iff.mp hstep
  refine ⟨h.plain hwith hcaller fun hsweeps ↦ h.next ?_, hwith⟩
  rcases Sharing.step_sweeps hwith hsweeps with hsweeps | ⟨ha, hending | hunlocking⟩
  · exact hsweeps
  · exact absurd hending (hloop ha).1
  · exact absurd hunlocking (hloop ha).2

theorem stepCaller (h : s.Shows l) (hapart : s.CallerApart ci (s.sharing.records ci).pc)
    (hstep : s.stepCaller ci = some s') : ∃ l', s'.Shows l' ∧
      (s'.sharing.withList l' = s.sharing.withList l ∨
        (s.sharing.withList l).stepCaller ci = some (s'.sharing.withList l')) := by
  unfold LinkedSharing.stepCaller at hstep
  split at hstep
  · rename_i hpc
    rw [hpc] at hapart
    obtain ⟨hs', hplain⟩ := h.add hpc hapart hstep
    exact ⟨_, hs', .inr hplain⟩
  · rename_i hpc
    rw [hpc] at hapart
    obtain ⟨hs', hplain⟩ := h.search hpc hapart hstep
    exact ⟨l, hs', hplain.imp_left (congrArg (Sharing.withList · l))⟩
  · rename_i hpc
    rcases h.delete hpc hstep with ⟨hs', hsame⟩ | ⟨hs', hplain⟩
    · exact ⟨l, hs', .inl (congrArg (Sharing.withList · l) hsame)⟩
    · exact ⟨_, hs', .inr hplain⟩
  · rename_i hadding hsearching hwithdrawing
    have hwith := s.sharing.stepCaller_withList l hadding hsearching hwithdrawing
    have hcaller : ∀ cj, Action.caller ci = .caller cj → ∀ removal : Removal,
        (s.sharing.records cj).pc ≠ removal.pc := by
      rintro cj hcj removal
      obtain rfl := Action.caller.inj hcj
      cases removal with
      | idle | looking => exact hsearching
      | found node | forward node | backward node => exact hwithdrawing
    obtain ⟨hs', hplain⟩ := h.plainly (a := .caller ci) hwith hcaller (by simp) hstep
    exact ⟨l, hs', .inr hplain⟩

/-! The steps of the event loop. -/

theorem takeTask (h : s.Shows l) (hinside : s.inside = []) {num : ℕ}
    (hloop : s.sharing.loop = .tasking (num + 1)) (hstep : s.takeTask num = some s') :
    ∃ l', s'.Shows l' ∧ (s.sharing.withList l).stepLoop = some (s'.sharing.withList l') := by
  obtain ⟨hidle, hlist, hheld⟩ := h.whole hinside
  unfold LinkedSharing.takeTask at hstep
  rw [hlist, Removal.head_contents] at hstep
  cases l with
  | nil =>
      obtain rfl := Option.some.inj hstep
      refine ⟨[], ⟨.inl ⟨hinside, hidle, rfl, hheld⟩, fun hsweeps ↦ ?_, h.unused⟩, ?_⟩
      · exact absurd hsweeps (by simp [LoopAt.sweeps])
      · simp only [Sharing.stepLoop, Sharing.withList_loop, Sharing.withList_cmdList, hloop]
        rfl
  | cons ci l =>
      have hlen : (contents (ci :: l)).header.len ≠ 0 := by simp [contents, Contents.header]
      rw [if_neg hlen] at hstep
      obtain ⟨hsharing, hs'⟩ := h.takes hinside hstep rfl rfl
      refine ⟨l, hs', ?_⟩
      simp only [Sharing.stepLoop, Sharing.withList_loop, Sharing.withList_cmdList, hloop]
      rw [hsharing]
      rfl

/-- A round of a loop over the list. -/
theorem takeNext (h : s.Shows l) (hsweeps : s.sharing.loop.sweeps = true) {f : ℕ → Sharing}
    {r : ℕ → CmdRecord} {last : Sharing} (hstep : s.takeNext f last = some s')
    (hf : ∀ ci, (f ci).records = Function.update s.sharing.records ci (r ci))
    (hpc : ∀ ci, (r ci).pc = (s.sharing.records ci).pc)
    (hrecords : last.records = s.sharing.records) (hends : last.loop.sweeps = false) :
    l = [] ∧ s'.sharing = last ∧ s'.Shows [] ∨
      ∃ ci l', l = ci :: l' ∧ s'.sharing = f ci ∧ s'.Shows l' := by
  obtain ⟨hinside, hnext⟩ := h.next hsweeps
  unfold LinkedSharing.takeNext at hstep
  rw [hnext] at hstep
  cases l with
  | nil =>
      obtain rfl := Option.some.inj hstep
      obtain ⟨hidle, hs⟩ := h.whole hinside
      refine .inl ⟨rfl, rfl, .inl ⟨hinside, hidle, hs⟩, fun hsweeps' ↦ ?_, fun ci hearly ↦ ?_⟩
      · exact absurd hsweeps' (by simp [hends])
      · exact h.unused ci (hrecords ▸ hearly)
  | cons ci l => exact .inr ⟨ci, l, rfl, h.takes hinside hstep (hf ci) (hpc ci)⟩

/-- A loop over the list may begin. -/
theorem begins (h : s.Shows l)
    (hwith : (s.sharing.withList l).stepLoop = s.sharing.stepLoop.map (·.withList l))
    (hinside : ∀ t, s.sharing.stepLoop = some t → t.loop.sweeps = true → s.inside = [])
    (hstep : ((s.plainly s.sharing.stepLoop).map fun s ↦
      { s with next := if s.sharing.loop.sweeps then s.list.head else s.next }) = some s') :
    s'.Shows l ∧ (s.sharing.withList l).stepLoop = some (s'.sharing.withList l) := by
  obtain ⟨u, hu, rfl⟩ := Option.map_eq_some_iff.mp hstep
  obtain ⟨t, ht, rfl⟩ := Option.map_eq_some_iff.mp hu
  rw [ht] at hwith
  refine ⟨h.plain (a := .loop) hwith (by simp) fun hsweeps ↦ ?_, hwith⟩
  have hnobody := hinside t ht hsweeps
  refine ⟨hnobody, (if_pos hsweeps).trans ?_⟩
  rw [(h.whole hnobody).2.1, Removal.head_contents]

/-- While there are callbacks to run, no loop over the list begins. -/
theorem nextPending_eq (hloop : s.sharing.loop = .ending) (hstep : s.sharing.stepLoop = some t)
    (hsweeps : t.loop.sweeps = true) : Sharing.nextPending s.sharing.ac = none := by
  cases hnext : Sharing.nextPending s.sharing.ac with
  | none => rfl
  | some p =>
      simp only [Sharing.stepLoop, hloop, hnext, Option.some.injEq] at hstep
      subst hstep
      simp [Sharing.runCallback_sweeps] at hsweeps

theorem stepLoop (h : s.Shows l) (hapart : s.ComesToList s.sharing.loop → s.inside = [])
    (hstep : s.stepLoop = some s') :
    ∃ l', s'.Shows l' ∧ (s.sharing.withList l).stepLoop = some (s'.sharing.withList l') := by
  unfold LinkedSharing.stepLoop at hstep
  split at hstep
  · rename_i num hloop
    rw [hloop] at hapart
    exact h.takeTask (hapart trivial) hloop hstep
  · rename_i hloop
    rcases h.takeNext (by rw [hloop]; rfl) hstep (fun _ ↦ rfl) (fun _ ↦ rfl) rfl rfl with
      ⟨rfl, hsharing, hs'⟩ | ⟨ci, l', rfl, hsharing, hs'⟩
    · refine ⟨[], hs', ?_⟩
      simp only [Sharing.stepLoop, Sharing.withList_loop, Sharing.withList_cmdList, hloop, hsharing]
      rfl
    · refine ⟨l', hs', ?_⟩
      simp only [Sharing.stepLoop, Sharing.withList_loop, Sharing.withList_cmdList, hloop, hsharing]
      rfl
  · rename_i hloop
    rcases h.takeNext (by rw [hloop]; rfl) hstep (fun _ ↦ rfl) (fun _ ↦ rfl) rfl rfl with
      ⟨rfl, hsharing, hs'⟩ | ⟨ci, l', rfl, hsharing, hs'⟩
    · refine ⟨[], hs', ?_⟩
      simp only [Sharing.stepLoop, Sharing.withList_loop, Sharing.withList_cmdList, hloop, hsharing]
      rfl
    · refine ⟨l', hs', ?_⟩
      simp only [Sharing.stepLoop, Sharing.withList_loop, Sharing.withList_cmdList, hloop, hsharing]
      rfl
  · rename_i hloop
    have hwith := s.sharing.stepLoop_withList l (by simp [hloop]) (by simp [hloop])
      (by simp [hloop])
    have hinside : ∀ t, s.sharing.stepLoop = some t → t.loop.sweeps = true → s.inside = [] := by
      intro t ht hsweeps
      rw [hloop] at hapart
      exact hapart (nextPending_eq hloop ht hsweeps)
    obtain ⟨hs', hplain⟩ := h.begins hwith hinside hstep
    exact ⟨l, hs', hplain⟩
  · rename_i hloop
    have hwith := s.sharing.stepLoop_withList l (by simp [hloop]) (by simp [hloop])
      (by simp [hloop])
    rw [hloop] at hapart
    obtain ⟨hs', hplain⟩ := h.begins hwith (fun _ _ _ ↦ hapart trivial) hstep
    exact ⟨l, hs', hplain⟩
  · rename_i htasking hclearing hscrapping hending hunlocking
    have hwith := s.sharing.stepLoop_withList l htasking hclearing hscrapping
    obtain ⟨hs', hplain⟩ := h.plainly (a := .loop) hwith (by simp) (fun _ ↦ ⟨hending, hunlocking⟩)
      hstep
    exact ⟨l, hs', hplain⟩

/-- In a step of the linked list the plain one takes the same step, or none. -/
theorem step (h : s.Shows l) (hapart : s.Apart a) (hstep : s.step a = some s') :
    ∃ l', s'.Shows l' ∧ (s'.sharing.withList l' = s.sharing.withList l ∨
      (s.sharing.withList l).step a = some (s'.sharing.withList l')) := by
  have hplainly : (∀ ci, a ≠ .caller ci) → a ≠ .loop → s.plainly (s.sharing.step a) = some s' →
      ∃ l', s'.Shows l' ∧ (s'.sharing.withList l' = s.sharing.withList l ∨
        (s.sharing.withList l).step a = some (s'.sharing.withList l')) := by
    intro hcaller hloop hstep
    obtain ⟨hs', hplain⟩ := h.plainly (s.sharing.step_withList l hcaller hloop)
      (fun ci ha ↦ absurd ha (hcaller ci)) (fun ha ↦ absurd ha hloop) hstep
    exact ⟨l, hs', .inr hplain⟩
  cases a with
  | caller ci => exact h.stepCaller hapart hstep
  | loop =>
      obtain ⟨l', hs', hplain⟩ := h.stepLoop hapart hstep
      exact ⟨l', hs', .inr hplain⟩
  | call | context | task | read | endCall | close | free =>
      exact hplainly (by simp) (by simp) hstep

theorem heeded (h : s.Shows l) (hheeded : s.Heeded a) : (s.sharing.withList l).Heeded a := by
  cases a with
  | loop =>
      change s.LoopHeeds s.sharing.loop at hheeded
      change (s.sharing.withList l).LoopHeeds s.sharing.loop
      cases hloop : s.sharing.loop with
      | scrapping =>
          rw [hloop] at hheeded
          obtain ⟨hinside, hnext⟩ := h.next (by rw [hloop]; rfl)
          obtain ⟨-, -, hheld⟩ := h.whole hinside
          intro ci hci
          cases l with
          | nil => simp [Sharing.withList] at hci
          | cons cj l =>
              obtain rfl : cj = ci := by simpa [Sharing.withList] using hci
              exact hheeded cj hnext _ hheld.seg.1
      | _ =>
          rw [hloop] at hheeded
          exact hheeded
  | _ => trivial

theorem awake (h : s.Shows l) (hawake : (s.sharing.withList l).Awake) : s.Awake := by
  intro ci hwaiting hanswerable
  refine hawake ci hwaiting fun hplain ↦ hanswerable ?_
  refine hplain.imp_left fun hmem ↦ ?_
  rcases h.list with ⟨-, -, hs⟩ | ⟨cj, -, -, hof, hpc, hs⟩
  · exact hs.reaches hmem (by simp [Removal.severed])
  · refine hs.reaches hmem ?_
    intro hsevered
    obtain ⟨rfl, hat⟩ := hof.severed hsevered
    exact absurd (hwaiting.symm.trans (hpc.trans hat)) (by simp)

end Shows

theorem fresh_shows : fresh.Shows [] where
  list := .inl ⟨rfl, fun _ ↦ rfl, rfl, trivial, List.nodup_nil⟩
  next := fun hsweeps ↦ absurd hsweeps (by simp [fresh, Sharing.fresh, LoopAt.sweeps])
  unused := fun _ _ ↦ rfl

/-- The run with a plain list behind a run with a linked one. -/
theorem apart_shows {s : LinkedSharing}
    (h : machine.Reach (fun s a ↦ s.Apart a ∧ s.Heeded a) s) :
    ∃ l, Sharing.machine.Reach Sharing.Heeded (s.sharing.withList l) ∧ s.Shows l := by
  induction h with
  | start h0 => exact h0 ▸ ⟨[], .start rfl, fresh_shows⟩
  | step a _ hguard hstep ih =>
      obtain ⟨l, hreach, hshows⟩ := ih
      obtain ⟨l', hs', hsame | hplain⟩ := hshows.step hguard.1 hstep
      · exact ⟨l', hsame ▸ hreach, hs'⟩
      · exact ⟨l', .step a hreach (hshows.heeded hguard.2) hplain, hs'⟩

/-- No caller sleeps in vain in a run in which the event loop lets go of a caller that will
wait only with a post, and no one else comes to the list while a caller deletes its node. -/
theorem apart_awake {s : LinkedSharing}
    (h : machine.Reach (fun s a ↦ s.Apart a ∧ s.Heeded a) s) : s.Awake := by
  obtain ⟨l, hreach, hshows⟩ := apart_shows h
  exact hshows.awake (Sharing.heeded_awake hreach)

/-- Nobody can come to a record while the list has no first node. -/
theorem not_answerable {s : LinkedSharing} {ci : ℕ} (hhead : s.list.head = none)
    (hholds : ¬s.sharing.ac.Holds ci) (hserves : (s.sharing.loop.work ci).serves ≠ true) :
    ¬s.Answerable ci := by
  rintro (hreaches | hheld | hserved)
  · rw [hhead] at hreaches
    exact Doubly.not_reaches_none hreaches
  · exact hholds hheld
  · exact hserves hserved

/-- A caller takes its command back; then the connection is lost with another command
dispatched: its callback gets `NULL`, and the caller is posted. -/
theorem apart_awake_teardown :
    ∃ s, machine.Reach (fun s a ↦ s.Apart a ∧ s.Heeded a) s ∧
      (s.sharing.records 1).place = .withdrawn ∧ (s.sharing.records 0).pc = .waiting ∧
      ¬s.Answerable 0 ∧ s.Awake := by
  obtain ⟨s, hrun, hposted⟩ := machine.run_spec fresh
    ([Action.call 1 (Command.ofWords "GET" ["x"]).bytes] ++ List.replicate 15 (Action.caller 1) ++
      [Action.call 0 (Command.ofWords "GET" ["x"]).bytes] ++ List.replicate 6 (Action.caller 0) ++
      [Action.task 1, .loop, .loop, .loop, .close (some .io), .loop, .loop, .loop, .loop])
    (fun s ↦ decide ((s.sharing.records 1).place = .withdrawn ∧
      (s.sharing.records 0).pc = .waiting ∧ s.list.head = none ∧ ¬s.sharing.ac.Holds 0 ∧
      (s.sharing.loop.work 0).serves ≠ true)) (by decide +kernel)
  obtain ⟨hwithdrawn, hwaiting, hhead, hholds, hserves⟩ := of_decide_eq_true hposted
  have hreach : machine.Reach (fun s a ↦ s.Apart a ∧ s.Heeded a) s :=
    (Machine.Reach.start rfl).run (by decide +kernel) hrun
  exact ⟨s, hreach, hwithdrawn, hwaiting, not_answerable hhead hholds hserves,
    apart_awake hreach⟩

/-- Two ways in which a caller sleeps on: the connection is lost with its command queued,
and `disconnectedCallback` drops the reference of the list without a post; or its command is
appended while another caller deletes its node, and is lost with it. -/
theorem dropped_sleeper : (∃ s, machine.Reach Apart s ∧ ¬s.Awake) ∧
    ∃ s, machine.Reach Heeded s ∧ ¬s.Awake := by
  constructor
  · obtain ⟨s, hrun, hasleep⟩ := machine.run_spec fresh
      ([Action.call 0 (Command.ofWords "GET" ["x"]).bytes] ++
        List.replicate 6 (Action.caller 0) ++ [Action.close (some .io), .loop, .loop, .loop])
      (fun s ↦ decide ((s.sharing.records 0).pc = .waiting ∧ s.list.head = none ∧
        ¬s.sharing.ac.Holds 0 ∧ (s.sharing.loop.work 0).serves ≠ true ∧
        (s.sharing.records 0).posts = 0)) (by decide +kernel)
    obtain ⟨hwaiting, hhead, hholds, hserves, hposts⟩ := of_decide_eq_true hasleep
    refine ⟨s, (Machine.Reach.start rfl).run (by decide +kernel) hrun, fun h ↦ ?_⟩
    have hposted := h 0 hwaiting (not_answerable hhead hholds hserves)
    simp [hposts] at hposted
  · obtain ⟨s, hrun, hasleep⟩ := machine.run_spec fresh
      ([Action.call 0 (Command.ofWords "GET" ["x"]).bytes] ++
        List.replicate 12 (Action.caller 0) ++
        [Action.call 1 (Command.ofWords "GET" ["x"]).bytes] ++
        List.replicate 6 (Action.caller 1) ++ List.replicate 2 (Action.caller 0))
      (fun s ↦ decide ((s.sharing.records 1).pc = .waiting ∧ s.list.head = none ∧
        ¬s.sharing.ac.Holds 1 ∧ (s.sharing.loop.work 1).serves ≠ true ∧
        (s.sharing.records 1).posts = 0)) (by decide +kernel)
    obtain ⟨hwaiting, hhead, hholds, hserves, hposts⟩ := of_decide_eq_true hasleep
    refine ⟨s, (Machine.Reach.start rfl).run (by decide +kernel) hrun, fun h ↦ ?_⟩
    have hposted := h 1 hwaiting (not_answerable hhead hholds hserves)
    simp [hposts] at hposted

end LinkedSharing

end MuxHiredis
