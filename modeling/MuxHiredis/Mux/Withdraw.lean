import MuxHiredis.Mux.Pipe
import MuxHiredis.Mux.Removal

/-!
# Taking a command back

A caller whose wait is over looks for its command in `cmd_list` and deletes it there
without `xc->mutex`, so that others can come between the statements of `listDelNode`.
Here a `cmd_list` is the linked list of `list.c`.
-/

namespace MuxHiredis

open Adlist

open Doubly (first)

open Removal (Stands nodesOf contents addrs_nodesOf listAddNodeTail_nodes listSearchKey_nodes
  listDelNode_nodes)

namespace Pipe

variable {L M : Type*}

/-- The same connection with other lists. -/
def withLists (s : Pipe L) (lists : ℕ → M) : Pipe M where
  bytes := s.bytes
  connected := s.connected
  ctx := s.ctx
  links := s.links
  cmdLists := lists
  next := s.next
  callers := s.callers
  ac := s.ac
  reference := s.reference
  dispatched := s.dispatched
  loop := s.loop

/-- A step that leaves the lists alone, and the callers that look for their commands. -/
structure Keeps (s q : Pipe L) : Prop where
  cmdLists : q.cmdLists = s.cmdLists
  ac : q.ac = s.ac
  next : s.next ≤ q.next
  searching : ∀ id < s.next, s.callers id = .searching → q.callers id = .searching
  unused : ∀ id, q.next ≤ id ∨ q.callers id = .entered → s.next ≤ id ∨ s.callers id = .entered

theorem Keeps.of_callers {s q : Pipe L} (hcmdLists : q.cmdLists = s.cmdLists) (hac : q.ac = s.ac)
    (hnext : q.next = s.next) (hcallers : q.callers = s.callers) : s.Keeps q := by
  refine ⟨hcmdLists, hac, hnext.ge, ?_, ?_⟩
  · rw [hcallers]
    exact fun _ _ ↦ id
  · rw [hnext, hcallers]
    exact fun _ ↦ id

/-- One caller moves on, which did not look for its command. -/
theorem Keeps.move {s q : Pipe L} {id : ℕ} {at' : PipeCaller} (hfrom : s.callers id ≠ .searching)
    (hto : at' ≠ .entered) (hcmdLists : q.cmdLists = s.cmdLists) (hac : q.ac = s.ac)
    (hnext : q.next = s.next) (hcallers : q.callers = Function.update s.callers id at') :
    s.Keeps q := by
  refine ⟨hcmdLists, hac, hnext.ge, fun id' _ hat ↦ ?_, fun id' hunused ↦ ?_⟩
  · have hne : id' ≠ id := by
      rintro rfl
      exact hfrom hat
    rwa [hcallers, Function.update_of_ne hne]
  · rw [hnext, hcallers] at hunused
    refine hunused.imp_right fun hat ↦ ?_
    by_cases hne : id' = id
    · rw [hne, Function.update_self] at hat
      exact absurd hat hto
    · rwa [Function.update_of_ne hne] at hat

variable {s q : Pipe L} {capacity : ℕ}

theorem enter_keeps (h : s.enter = some q) : s.Keeps q := by
  obtain rfl := Option.some.inj h
  refine ⟨rfl, rfl, Nat.le_succ _, fun id hid hat ↦ ?_, fun id hunused ↦ ?_⟩
  · simpa [setCaller, hid.ne] using hat
  · rcases hunused with hid | hat
    · exact .inl (Nat.le_of_succ_le hid)
    · by_cases hid : id = s.next
      · exact .inl hid.ge
      · exact .inr (by simpa [setCaller, hid] using hat)

theorem refuse_keeps {id : ℕ} (h : s.refuse id = some q) : s.Keeps q := by
  simp only [refuse, Option.ite_none_right_eq_some, Option.some.injEq] at h
  obtain ⟨⟨-, hat, -⟩, rfl⟩ := h
  exact .move (by simp [hat]) (by simp) rfl rfl rfl rfl

theorem write_keeps {id : ℕ} (h : s.write capacity id = some q) : s.Keeps q := by
  simp only [write, Option.ite_none_right_eq_some, Option.some.injEq] at h
  obtain ⟨⟨-, hat⟩, rfl⟩ := h
  exact .move (by simp [hat]) (by simp) rfl rfl rfl rfl

theorem countDown_keeps {id : ℕ} (h : s.countDown id = some q) : s.Keeps q := by
  simp only [countDown, Option.ite_none_right_eq_some, Option.some.injEq] at h
  obtain ⟨⟨-, hat⟩, rfl⟩ := h
  refine .move (by simp [hat]) ?_ rfl rfl rfl rfl
  split <;> simp

theorem task_keeps {k : ℕ} (h : s.task k = some q) : s.Keeps q := by
  simp only [task, Option.ite_none_right_eq_some] at h
  obtain ⟨-, h⟩ := h
  split at h
  · obtain rfl := Option.some.inj h
    exact .of_callers rfl rfl rfl rfl
  · obtain ⟨-, h⟩ := Option.ite_none_right_eq_some.mp h
    obtain rfl := Option.some.inj h
    exact .of_callers rfl rfl rfl rfl

theorem lock_keeps (h : s.lock = some q) : s.Keeps q := by
  unfold lock at h
  split at h
  · split at h
    · obtain ⟨c, -, rfl⟩ := Option.map_eq_some_iff.mp h
      exact .of_callers rfl rfl rfl rfl
    · obtain rfl := Option.some.inj h
      exact .of_callers rfl rfl rfl rfl
  · simp at h

theorem reply_keeps {id : ℕ} (h : s.reply id = some q) : s.Keeps q := by
  simp only [reply, Option.ite_none_right_eq_some, Option.some.injEq] at h
  obtain ⟨-, rfl⟩ := h
  exact .of_callers rfl rfl rfl rfl

theorem attempt_keeps {c : ℕ} (h : s.attempt c = some q) : s.Keeps q := by
  simp only [attempt, Option.ite_none_right_eq_some, Option.some.injEq] at h
  obtain ⟨-, rfl⟩ := h
  exact .of_callers rfl rfl rfl rfl

theorem giveUp_keeps (h : s.giveUp = some q) : s.Keeps q := by
  simp only [giveUp, Option.ite_none_right_eq_some, Option.some.injEq] at h
  obtain ⟨-, rfl⟩ := h
  exact .of_callers rfl rfl rfl rfl

theorem connect_keeps {c : ℕ} (h : s.connect c = some q) : s.Keeps q := by
  simp only [connect, Option.ite_none_right_eq_some, Option.some.injEq] at h
  obtain ⟨-, rfl⟩ := h
  exact .of_callers rfl rfl rfl rfl

theorem fail_keeps {c : ℕ} (h : s.fail c = some q) : s.Keeps q := by
  simp only [fail, Option.ite_none_right_eq_some, Option.some.injEq] at h
  obtain ⟨-, rfl⟩ := h
  exact .of_callers rfl rfl rfl rfl

/-! The steps that leave the lists alone do not look at them either. -/

section WithLists

variable (s : Pipe L) (lists : ℕ → M)

theorem refuse_withLists (id : ℕ) :
    (s.withLists lists).refuse id = (s.refuse id).map (·.withLists lists) := by
  unfold refuse
  rw [apply_ite (Option.map (withLists · lists))]
  rfl

theorem write_withLists (capacity id : ℕ) :
    (s.withLists lists).write capacity id = (s.write capacity id).map (·.withLists lists) := by
  unfold write
  rw [apply_ite (Option.map (withLists · lists))]
  rfl

theorem countDown_withLists (id : ℕ) :
    (s.withLists lists).countDown id = (s.countDown id).map (·.withLists lists) := by
  unfold countDown
  rw [apply_ite (Option.map (withLists · lists))]
  rfl

theorem task_withLists (k : ℕ) :
    (s.withLists lists).task k = (s.task k).map (·.withLists lists) := by
  unfold task
  rw [apply_ite (Option.map (withLists · lists)), apply_ite (Option.map (withLists · lists)),
    apply_ite (Option.map (withLists · lists))]
  rfl

theorem lock_withLists : (s.withLists lists).lock = s.lock.map (·.withLists lists) := by
  obtain ⟨_, connected, ctx, _, _, _, _, _, _, _, loop⟩ := s
  cases loop <;> cases connected <;> cases ctx <;> rfl

theorem reply_withLists (id : ℕ) :
    (s.withLists lists).reply id = (s.reply id).map (·.withLists lists) := by
  unfold reply
  rw [apply_ite (Option.map (withLists · lists))]
  rfl

theorem attempt_withLists (c : ℕ) :
    (s.withLists lists).attempt c = (s.attempt c).map (·.withLists lists) := by
  unfold attempt
  rw [apply_ite (Option.map (withLists · lists))]
  rfl

theorem giveUp_withLists : (s.withLists lists).giveUp = s.giveUp.map (·.withLists lists) := by
  unfold giveUp
  rw [apply_ite (Option.map (withLists · lists))]
  rfl

theorem connect_withLists (c : ℕ) :
    (s.withLists lists).connect c = (s.connect c).map (·.withLists lists) := by
  unfold connect
  rw [apply_ite (Option.map (withLists · lists))]
  rfl

theorem fail_withLists (c : ℕ) :
    (s.withLists lists).fail c = (s.fail c).map (·.withLists lists) := by
  unfold fail
  rw [apply_ite (Option.map (withLists · lists))]
  rfl

end WithLists

end Pipe

/-- The connection with its lists in the heap.  A node goes by the number of the caller
that allocated it. -/
structure LinkedPipe extends Pipe (AdList ℕ) where
  heap : Heap ℕ
  removals : ℕ → Removal

namespace LinkedPipe

inductive Action where
  | enter
  | refuse (id : ℕ)
  | enqueue (id : ℕ)
  | write (id : ℕ)
  | countDown (id : ℕ)
  | search (id : ℕ)
  | find (id : ℕ)
  | delForward (id : ℕ)
  | delBackward (id : ℕ)
  | delFree (id : ℕ)
  | task (k : ℕ)
  | lock
  | take
  | reply (id : ℕ)
  | disconnect (c : ℕ)
  | attempt (c : ℕ)
  | giveUp
  | connect (c : ℕ)
  | fail (c : ℕ)

/-- A step that touches no list. -/
def plainly (s : LinkedPipe) (p : Option (Pipe (AdList ℕ))) : Option LinkedPipe :=
  p.map fun p ↦ { s with toPipe := p }

/-- A step of the caller that changes its list. -/
def remove (s : LinkedPipe) (id : ℕ) (at' : PipeCaller) (removal : Removal)
    (r : Option (Heap ℕ × AdList ℕ)) : Option LinkedPipe :=
  r.map fun r ↦
    { s with
      toPipe := (s.toPipe.setCaller id at').setCmdList (s.ac id) r.2
      heap := r.1
      removals := Function.update s.removals id removal }

/-- The section under `xc->mutex`. -/
def enqueue (s : LinkedPipe) (id : ℕ) : Option LinkedPipe :=
  if id < s.next ∧ s.callers id = .entered ∧ ¬s.loop.Locked then
    match s.ctx with
    | none => some { s with toPipe := s.toPipe.setCaller id .returned }
    | some c =>
        if s.connected then
          (listAddNodeTail s.heap (s.cmdLists c) id (some id)).map fun r ↦
            { s with
              toPipe := { (s.toPipe.setCaller id .writing).setCmdList c r.2.1 with
                ac := Function.update s.ac id c
                reference := Function.update s.reference id 2 }
              heap := r.1 }
        else some { s with toPipe := s.toPipe.setCaller id .returned }
  else none

/-- `listSearchKey` begins, without a lock. -/
def search (s : LinkedPipe) (id : ℕ) : Option LinkedPipe :=
  if id < s.next ∧ s.callers id = .searching ∧ s.removals id = .idle then
    some { s with removals := Function.update s.removals id .looking }
  else none

/-- `listSearchKey` ends. -/
def find (s : LinkedPipe) (id : ℕ) : Option LinkedPipe :=
  match s.removals id with
  | .looking =>
      (listSearchKey s.heap (s.cmdLists (s.ac id)) id).map fun
        | none =>
            { s with
              toPipe := s.toPipe.setCaller id .returned
              removals := Function.update s.removals id .idle }
        | some node => { s with removals := Function.update s.removals id (.found node) }
  | _ => none

def delForward (s : LinkedPipe) (id : ℕ) : Option LinkedPipe :=
  match s.removals id with
  | .found node =>
      s.remove id .searching (.forward node)
        (Adlist.delForward s.heap (s.cmdLists (s.ac id)) node)
  | _ => none

def delBackward (s : LinkedPipe) (id : ℕ) : Option LinkedPipe :=
  match s.removals id with
  | .forward node =>
      s.remove id .searching (.backward node)
        (Adlist.delBackward s.heap (s.cmdLists (s.ac id)) node)
  | _ => none

def delFree (s : LinkedPipe) (id : ℕ) : Option LinkedPipe :=
  match s.removals id with
  | .backward node =>
      s.remove id .returned .idle (Adlist.delFree s.heap (s.cmdLists (s.ac id)) node)
  | _ => none

/-- One round of the loop of `taskDeal`, under `xc->mutex`. -/
def take (s : LinkedPipe) : Option LinkedPipe :=
  match s.loop with
  | .dealing c getNum =>
      if (s.cmdLists c).len = 0 then some { s with toPipe := { s.toPipe with loop := .idle } }
      else
        match (s.cmdLists c).head with
        | none => some { s with toPipe := { s.toPipe with loop := .idle } }
        | some node =>
            (s.heap.nodes node).bind fun cell ↦
              (listDelNode s.heap (s.cmdLists c) node).map fun r ↦
                { s with
                  toPipe := { s.toPipe.setCmdList c r.2 with
                    dispatched := Function.update s.dispatched cell.value true
                    loop := if getNum - 1 ≤ 0 then .idle else .dealing c (getNum - 1) }
                  heap := r.1 }
  | _ => none

/-- The loop of `disconnectedCallback` over the nodes from `node` on. -/
def sweep : ℕ → Heap ℕ → AdList ℕ → (ℕ → ℤ) → Option ℕ → Option (Heap ℕ × AdList ℕ × (ℕ → ℤ))
  | _, h, list, reference, none => some (h, list, reference)
  | 0, _, _, _, some _ => none
  | fuel + 1, h, list, reference, some node =>
      (h.nodes node).bind fun cell ↦ (listDelNode h list node).bind fun r ↦
        sweep fuel r.1 r.2
          (Function.update reference cell.value (reference cell.value - 1)) cell.next

/-- The first section of `disconnectedCallback`, under `xc->mutex`.  No two nodes have the
same caller, which bounds the loop. -/
def disconnect (s : LinkedPipe) (c : ℕ) : Option LinkedPipe :=
  if s.loop = .idle ∧ s.links c = .connected then
    (sweep s.next s.heap (s.cmdLists c) s.reference (s.cmdLists c).head).map fun r ↦
      { s with
        toPipe := { s.toPipe.setCmdList c r.2.1 with
          reference := r.2.2
          connected := false
          links := Function.update s.links c .torn }
        heap := r.1 }
  else none

def step (capacity : ℕ) (s : LinkedPipe) : Action → Option LinkedPipe
  | .enter => s.plainly s.enter
  | .refuse id => s.plainly (s.refuse id)
  | .enqueue id => s.enqueue id
  | .write id => s.plainly (s.write capacity id)
  | .countDown id => s.plainly (s.countDown id)
  | .search id => s.search id
  | .find id => s.find id
  | .delForward id => s.delForward id
  | .delBackward id => s.delBackward id
  | .delFree id => s.delFree id
  | .task k => s.plainly (s.task k)
  | .lock => s.plainly s.lock
  | .take => s.take
  | .reply id => s.plainly (s.reply id)
  | .disconnect c => s.disconnect c
  | .attempt c => s.plainly (s.attempt c)
  | .giveUp => s.plainly s.giveUp
  | .connect c => s.plainly (s.connect c)
  | .fail c => s.plainly (s.fail c)

/-- An empty pipe, empty lists and no connection yet. -/
def fresh : LinkedPipe where
  bytes := 0
  connected := false
  ctx := none
  links := fun _ ↦ .unmade
  cmdLists := fun _ ↦ .empty
  next := 0
  callers := fun _ ↦ .returned
  ac := fun _ ↦ 0
  reference := fun _ ↦ 0
  dispatched := fun _ ↦ false
  loop := .idle
  heap := ⟨fun _ ↦ none, []⟩
  removals := fun _ ↦ .idle

def machine (capacity : ℕ) : Machine LinkedPipe Action := ⟨(· = fresh), step capacity⟩

/-- No wake-up is lost. -/
def Roused (s : LinkedPipe) : Prop :=
  s.connected = true → s.loop = .idle → ∀ c, s.ctx = some c →
    (s.cmdLists c).len ≤ s.bytes + s.writers.card ∧
      ((s.cmdLists c).len ≠ 0 → 0 < s.bytes ∨ s.writers.Nonempty)

/-- Nobody is in `listSearchKey` or `listDelNode` for the list. -/
def Undisturbed (s : LinkedPipe) (c : ℕ) : Prop :=
  ∀ id < s.next, s.removals id ≠ .idle → s.ac id ≠ c

instance (s : LinkedPipe) (c : ℕ) : Decidable (s.Undisturbed c) :=
  inferInstanceAs (Decidable (∀ id < s.next, s.removals id ≠ .idle → s.ac id ≠ c))

/-- What is assumed of callers and connects: see `Pipe.Assumed`. -/
def Assumed (capacity : ℕ) (s : LinkedPipe) : Action → Prop
  | .enter => s.toPipe.Assumed capacity .enter
  | .attempt c => s.toPipe.Assumed capacity (.attempt c)
  | .connect c => s.toPipe.Assumed capacity (.connect c)
  | _ => True

/-- Nobody is in `listSearchKey` or `listDelNode` for the list that `taskDeal` has. -/
def UndisturbedAt (s : LinkedPipe) : TaskDeal → Prop
  | .dealing c _ => s.Undisturbed c
  | .idle | .read _ => True

instance (s : LinkedPipe) : DecidablePred s.UndisturbedAt
  | .dealing c _ => inferInstanceAs (Decidable (s.Undisturbed c))
  | .idle | .read _ => .isTrue trivial

/-- While a caller deletes its node, from the search for it on, no one else comes to the
list; and no caller searches the list of a connection that was torn down. -/
def Apart (s : LinkedPipe) : Action → Prop
  | .enqueue _ => s.connected = true → ∀ c ∈ s.ctx, s.Undisturbed c
  | .search id => s.Undisturbed (s.ac id) ∧ s.links (s.ac id) ≠ .torn
  | .take => s.UndisturbedAt s.loop
  | .disconnect c => s.Undisturbed c
  | _ => True

instance (s : LinkedPipe) : DecidablePred s.Apart
  | .enqueue _ => inferInstanceAs (Decidable (_ → ∀ c ∈ s.ctx, s.Undisturbed c))
  | .search _ => inferInstanceAs (Decidable (_ ∧ _))
  | .take => inferInstanceAs (Decidable (s.UndisturbedAt _))
  | .disconnect _ => inferInstanceAs (Decidable (s.Undisturbed _))
  | .enter | .refuse _ | .write _ | .countDown _ | .find _ | .delForward _ | .delBackward _
  | .delFree _ | .task _ | .lock | .reply _ | .attempt _ | .giveUp | .connect _ | .fail _ =>
      .isTrue trivial

instance (capacity : ℕ) (s : LinkedPipe) : DecidablePred (s.Assumed capacity)
  | .enter => inferInstanceAs (Decidable (s.toPipe.Assumed capacity .enter))
  | .attempt c => inferInstanceAs (Decidable (s.toPipe.Assumed capacity (.attempt c)))
  | .connect c => inferInstanceAs (Decidable (s.toPipe.Assumed capacity (.connect c)))
  | .refuse _ | .enqueue _ | .write _ | .countDown _ | .search _ | .find _ | .delForward _
  | .delBackward _ | .delFree _ | .task _ | .lock | .take | .reply _ | .disconnect _ | .giveUp
  | .fail _ => .isTrue trivial

/-- The loop gives every command of the list up. -/
theorem sweep_spec {h : Heap ℕ} {l : List ℕ} (hheld : Held h (nodesOf l)) {fuel : ℕ}
    (hfuel : l.length ≤ fuel) (reference : ℕ → ℤ) :
    ∃ h', sweep fuel h (contents l).header reference (contents l).header.head =
        some (h', (contents []).header, fun id ↦
          if id ∈ l then reference id - 1 else reference id) ∧
      ∀ a ∉ l, h'.nodes a = h.nodes a := by
  induction l generalizing h fuel reference with
  | nil =>
      refine ⟨h, ?_, fun _ _ ↦ rfl⟩
      cases fuel <;> simp [sweep, contents, Contents.header]
  | cons node l ih =>
      obtain ⟨fuel, rfl⟩ := Nat.exists_eq_add_one_of_ne_zero
        (Nat.ne_of_gt (Nat.lt_of_lt_of_le (Nat.zero_lt_succ _) hfuel))
      obtain ⟨⟨cell, hcell, hvalue, hnext⟩, h₁, hdel, hheld₁, hframe₁⟩ := listDelNode_nodes hheld
      have hnode : node ∉ l := by
        have hnodup := hheld.nodup
        rw [addrs_nodesOf] at hnodup
        exact (List.nodup_cons.mp hnodup).1
      obtain ⟨h₂, hsweep, hframe₂⟩ := ih hheld₁ (Nat.le_of_succ_le_succ hfuel)
        (Function.update reference node (reference node - 1))
      refine ⟨h₂, ?_, fun a ha ↦ ?_⟩
      · have hhead : (contents (node :: l)).header.head = some node := rfl
        have hfirst : (contents l).header.head = first (nodesOf l) none := rfl
        rw [hhead, sweep, hcell, Option.bind_some, hdel, Option.bind_some, hvalue, hnext, ← hfirst,
          hsweep]
        refine congrArg some (Prod.ext rfl (Prod.ext rfl (funext fun id ↦ ?_)))
        by_cases hid : id = node
        · subst hid
          simp [hnode]
        · simp [hid]
      · rw [hframe₂ a fun hmem ↦ ha (List.mem_cons_of_mem _ hmem), hframe₁ a ha]

/-! ## The plain lists behind the linked ones -/

/-- The list `c` has the commands that `p` has, and at most one caller is deleting its
node from it. -/
def ListAt (s : LinkedPipe) (p : Pipe (List ℕ)) (c : ℕ) : Prop :=
  s.Undisturbed c ∧ Stands s.heap (s.cmdLists c) (p.cmdLists c) .idle ∨
    ∃ id, s.ac id = c ∧ id < s.next ∧ s.callers id = .searching ∧ (s.removals id).Of id ∧
      Stands s.heap (s.cmdLists c) (p.cmdLists c) (s.removals id) ∧
      ∀ id' < s.next, s.removals id' ≠ .idle → s.ac id' = c → id' = id

/-- The connection is `p`, but for the way in which the lists are kept. -/
structure Shows (s : LinkedPipe) (p : Pipe (List ℕ)) : Prop where
  pipe : s.toPipe.withLists p.cmdLists = p
  list : ∀ c, s.ListAt p c
  begun : ∀ id, s.removals id ≠ .idle → id < s.next
  unused : ∀ id, s.next ≤ id ∨ s.callers id = .entered → s.heap.nodes id = none

namespace Shows

variable {s s' : LinkedPipe} {p p' : Pipe (List ℕ)} {c id : ℕ}

theorem whole (h : s.Shows p) (hu : s.Undisturbed c) :
    Stands s.heap (s.cmdLists c) (p.cmdLists c) .idle := by
  rcases h.list c with ⟨-, hs⟩ | ⟨id, hac, hid, -, hat, -, -⟩
  · exact hs
  · exact absurd hac (hu id hid hat.ne_idle)

theorem removing (h : s.Shows p) (hat : s.removals id ≠ .idle) :
    s.callers id = .searching ∧ (s.removals id).Of id ∧
      Stands s.heap (s.cmdLists (s.ac id)) (p.cmdLists (s.ac id)) (s.removals id) ∧
      ∀ id' < s.next, s.removals id' ≠ .idle → s.ac id' = s.ac id → id' = id := by
  rcases h.list (s.ac id) with ⟨hu, -⟩ | ⟨id₀, -, -, hcaller, hat₀, hs, honly⟩
  · exact absurd rfl (hu id (h.begun id hat) hat)
  · obtain rfl := honly id (h.begun id hat) hat rfl
    exact ⟨hcaller, hat₀, hs, honly⟩

theorem len (h : s.Shows p) (c : ℕ) : (s.cmdLists c).len = (p.cmdLists c).length := by
  rcases h.list c with ⟨-, hs⟩ | ⟨id, -, -, -, -, hs, -⟩
  · exact hs.len
  · exact hs.len

/-- A list that a step leaves alone. -/
theorem elsewhere (h : s.Shows p) (hlist : s'.cmdLists c = s.cmdLists c)
    (hplain : p'.cmdLists c = p.cmdLists c)
    (hheap : ∀ a ∈ p.cmdLists c, s'.heap.nodes a = s.heap.nodes a) (hnext : s.next ≤ s'.next)
    (hbegun : ∀ id, s'.removals id ≠ .idle → id < s.next)
    (hac : ∀ id < s.next, s.removals id ≠ .idle ∨ s'.removals id ≠ .idle → s'.ac id = s.ac id)
    (hsame : ∀ id < s.next, s.ac id = c → s'.removals id = s.removals id ∧
      (s.callers id = .searching → s'.callers id = .searching)) : s'.ListAt p' c := by
  have hback : ∀ id, s'.removals id ≠ .idle → s'.ac id = c →
      s.removals id ≠ .idle ∧ s.ac id = c := by
    intro id hat hc
    have hc' : s.ac id = c := (hac id (hbegun id hat) (.inr hat)).symm.trans hc
    exact ⟨(hsame id (hbegun id hat) hc').1 ▸ hat, hc'⟩
  unfold ListAt
  rw [hlist, hplain]
  rcases h.list c with ⟨hu, hs⟩ | ⟨id, hc, hid, hcaller, hat, hs, honly⟩
  · refine .inl ⟨fun id _ hat hc ↦ ?_, hs.frame hheap⟩
    obtain ⟨hat', hc'⟩ := hback id hat hc
    exact hu id (hbegun id hat) hat' hc'
  · obtain ⟨hsame', hcaller'⟩ := hsame id hid hc
    refine .inr ⟨id, (hac id hid (.inl hat.ne_idle)).trans hc, Nat.lt_of_lt_of_le hid hnext,
      hcaller' hcaller, hsame' ▸ hat, hsame' ▸ hs.frame hheap, fun id' _ hat' hc' ↦ ?_⟩
    obtain ⟨hat₀, hc₀⟩ := hback id' hat' hc'
    exact honly id' (hbegun id' hat') hat₀ hc₀

/-- A step that leaves the lists alone. -/
theorem keeps (h : s.Shows p) {q : Pipe (AdList ℕ)} (hk : s.toPipe.Keeps q) :
    ({ s with toPipe := q } : LinkedPipe).Shows (q.withLists p.cmdLists) := by
  refine ⟨rfl, fun c ↦ ?_, fun id hat ↦ ?_, fun id hunused ↦ ?_⟩
  · exact h.elsewhere (congrFun hk.cmdLists c) rfl (fun _ _ ↦ rfl) hk.next h.begun
      (fun id _ _ ↦ congrFun hk.ac id) fun id hid _ ↦ ⟨rfl, hk.searching id hid⟩
  · exact Nat.lt_of_lt_of_le (h.begun id hat) hk.next
  · exact h.unused id (hk.unused id hunused)

/-- A step that leaves the lists alone does the same to `p`. -/
theorem plainly (h : s.Shows p) {f : Pipe (AdList ℕ) → Option (Pipe (AdList ℕ))}
    {g : Pipe (List ℕ) → Option (Pipe (List ℕ))}
    (hfg : ∀ (s : Pipe (AdList ℕ)) (lists : ℕ → List ℕ),
      g (s.withLists lists) = (f s).map (·.withLists lists))
    (hkeeps : ∀ q, f s.toPipe = some q → s.toPipe.Keeps q)
    (hstep : s.plainly (f s.toPipe) = some s') : ∃ p', g p = some p' ∧ s'.Shows p' := by
  obtain ⟨q, hq, rfl⟩ := Option.map_eq_some_iff.mp hstep
  refine ⟨q.withLists p.cmdLists, ?_, h.keeps (hkeeps q hq)⟩
  have hg := hfg s.toPipe p.cmdLists
  rwa [h.pipe, hq, Option.map_some] at hg

variable {capacity : ℕ} {removal : Removal}

theorem next_eq (h : s.Shows p) : p.next = s.next := (congrArg Pipe.next h.pipe).symm

theorem callers_eq (h : s.Shows p) : p.callers = s.callers := (congrArg Pipe.callers h.pipe).symm

theorem ac_eq (h : s.Shows p) : p.ac = s.ac := (congrArg Pipe.ac h.pipe).symm

/-- A command that nobody has put into a list yet. -/
theorem notMem (h : s.Shows p) (hp : p.Counted capacity)
    (hunused : s.next ≤ id ∨ s.callers id = .entered) (c : ℕ) : id ∉ p.cmdLists c := by
  intro hmem
  obtain ⟨hid, -, -, hawaits⟩ := hp.queued c id hmem
  rw [h.next_eq] at hid
  rcases hunused with hle | hat
  · exact absurd hid (Nat.not_lt.mpr hle)
  · rw [← h.callers_eq] at hat
    simp [Pipe.Awaits, hat] at hawaits

/-- A step of the caller that is about to delete its node, which is still in the list. -/
theorem remains (h : s.Shows p) (hp : p.Counted capacity) (hid : id < s.next)
    (hcaller : s.callers id = .searching)
    (honly : ∀ id' < s.next, s.removals id' ≠ .idle → s.ac id' = s.ac id → id' = id)
    (hpipe : s'.toPipe.withLists p.cmdLists = p)
    (hlists : ∀ c, c ≠ s.ac id → s'.cmdLists c = s.cmdLists c)
    (hremovals : s'.removals = Function.update s.removals id removal) (hof : removal.Of id)
    (hs : Stands s'.heap (s'.cmdLists (s.ac id)) (p.cmdLists (s.ac id)) removal)
    (hframe : ∀ a ∉ p.cmdLists (s.ac id), s'.heap.nodes a = s.heap.nodes a) : s'.Shows p := by
  have hnext : s'.next = s.next := (congrArg Pipe.next hpipe).trans h.next_eq
  have hcallers : s'.callers = s.callers := (congrArg Pipe.callers hpipe).trans h.callers_eq
  have hac : s'.ac = s.ac := (congrArg Pipe.ac hpipe).trans h.ac_eq
  have hother : ∀ id' ≠ id, s'.removals id' = s.removals id' := fun id' hne ↦ by
    rw [hremovals, Function.update_of_ne hne]
  have hself : s'.removals id = removal := by rw [hremovals, Function.update_self]
  have hbegun : ∀ id', s'.removals id' ≠ .idle → id' < s.next := fun id' hat ↦ by
    by_cases hne : id' = id
    · exact hne ▸ hid
    · exact h.begun id' (hother id' hne ▸ hat)
  refine ⟨hpipe, fun c ↦ ?_, fun id' hat ↦ hnext ▸ hbegun id' hat, fun id' hunused ↦ ?_⟩
  · by_cases hc : c = s.ac id
    · subst hc
      refine .inr ⟨id, congrFun hac id, hnext ▸ hid, hcallers ▸ hcaller, hself ▸ hof,
        hself ▸ hs, fun id' hid' hat hc' ↦ ?_⟩
      by_contra hne
      exact hne (honly id' (hnext ▸ hid') (hother id' hne ▸ hat) (hac ▸ hc'))
    · refine h.elsewhere (hlists c hc) rfl (fun a ha ↦ hframe a fun ha' ↦ ?_) hnext.ge hbegun
        (fun id' _ _ ↦ congrFun hac id') fun id' _ hc' ↦ ⟨hother id' ?_, fun hat ↦ hcallers ▸ hat⟩
      · exact hc ((hp.queued c a ha).2.1.symm.trans (hp.queued _ a ha').2.1)
      · rintro rfl
        exact hc hc'.symm
  · rw [hnext, hcallers] at hunused
    rw [hframe id' (h.notMem hp hunused _), h.unused id' hunused]

/-- The caller is done with its command. -/
theorem withdrawn (h : s.Shows p) (hp : p.Counted capacity) (hat : s.removals id ≠ .idle)
    (hpipe : s'.toPipe.withLists p.cmdLists = p.setCaller id .returned)
    (hlists : ∀ c, c ≠ s.ac id → s'.cmdLists c = s.cmdLists c)
    (hremovals : s'.removals = Function.update s.removals id .idle)
    (hs : Stands s'.heap (s'.cmdLists (s.ac id)) ((p.cmdLists (s.ac id)).erase id) .idle)
    (hframe : ∀ a ∉ p.cmdLists (s.ac id), s'.heap.nodes a = s.heap.nodes a) :
    ∃ p', p.search id = some p' ∧ s'.Shows p' := by
  obtain ⟨hcaller, -, -, honly⟩ := h.removing hat
  have hid := h.begun id hat
  have hnext : s'.next = s.next := (congrArg Pipe.next hpipe).trans h.next_eq
  have hcallers : s'.callers = Function.update s.callers id .returned :=
    (congrArg Pipe.callers hpipe).trans (h.callers_eq ▸ rfl)
  have hac : s'.ac = s.ac := (congrArg Pipe.ac hpipe).trans h.ac_eq
  have hother : ∀ id' ≠ id, s'.removals id' = s.removals id' := fun id' hne ↦ by
    rw [hremovals, Function.update_of_ne hne]
  have hself : s'.removals id = .idle := by rw [hremovals, Function.update_self]
  have hne : ∀ id', s'.removals id' ≠ .idle → id' ≠ id := by
    rintro id' hat' rfl
    exact hat' hself
  have hbegun : ∀ id', s'.removals id' ≠ .idle → id' < s.next := fun id' hat' ↦
    h.begun id' (hother id' (hne id' hat') ▸ hat')
  refine ⟨(p.setCaller id .returned).setCmdList (p.ac id) ((p.cmdLists (p.ac id)).erase id), ?_,
    ?_, fun c ↦ ?_, fun id' hat' ↦ hnext ▸ hbegun id' hat', fun id' hunused ↦ ?_⟩
  · rw [Pipe.search, if_pos ⟨h.next_eq ▸ hid, h.callers_eq ▸ hcaller⟩]
  · exact congrArg (Pipe.setCmdList · (p.ac id) ((p.cmdLists (p.ac id)).erase id)) hpipe
  · rw [h.ac_eq]
    by_cases hc : c = s.ac id
    · subst hc
      refine .inl ⟨fun id' hid' hat' hc' ↦ ?_, ?_⟩
      · exact hne id' hat'
          (honly id' (hnext ▸ hid') (hother id' (hne id' hat') ▸ hat') (hac ▸ hc'))
      · simpa [Pipe.setCmdList] using hs
    · refine h.elsewhere (hlists c hc) (by simp [Pipe.setCmdList, Pipe.setCaller, hc])
        (fun a ha ↦ hframe a fun ha' ↦ ?_) hnext.ge hbegun (fun id' _ _ ↦ congrFun hac id')
        fun id' _ hc' ↦ ?_
      · exact hc ((hp.queued c a ha).2.1.symm.trans (hp.queued _ a ha').2.1)
      · have hne' : id' ≠ id := by
          rintro rfl
          exact hc hc'.symm
        refine ⟨hother id' hne', fun hat' ↦ ?_⟩
        rwa [hcallers, Function.update_of_ne hne']
  · have hunused' : s.next ≤ id' ∨ s.callers id' = .entered := by
      rw [hnext, hcallers] at hunused
      refine hunused.imp_right fun hat' ↦ ?_
      have hne' : id' ≠ id := by
        rintro rfl
        simp at hat'
      rwa [Function.update_of_ne hne'] at hat'
    rw [hframe id' (h.notMem hp hunused' _), h.unused id' hunused']

/-- A step that changes a list while nobody else is there. -/
theorem changed (h : s.Shows p) (hp : p.Counted capacity) (hu : s.Undisturbed c)
    (hpipe : s'.toPipe.withLists p'.cmdLists = p') (hremovals : s'.removals = s.removals)
    (hnext : s'.next = s.next) (hac : ∀ id, s.removals id ≠ .idle → s'.ac id = s.ac id)
    (hsearching : ∀ id, s.callers id = .searching → s'.callers id = .searching)
    (hlists : ∀ c', c' ≠ c → s'.cmdLists c' = s.cmdLists c' ∧ p'.cmdLists c' = p.cmdLists c')
    (hs : Stands s'.heap (s'.cmdLists c) (p'.cmdLists c) .idle)
    (hframe : ∀ a, a ∉ p.cmdLists c → a ∉ p'.cmdLists c → s'.heap.nodes a = s.heap.nodes a)
    (hadded : ∀ id ∈ p'.cmdLists c, id ∈ p.cmdLists c ∨ s.callers id = .entered)
    (hunused : ∀ id, s'.next ≤ id ∨ s'.callers id = .entered →
      (s.next ≤ id ∨ s.callers id = .entered) ∧ id ∉ p'.cmdLists c) : s'.Shows p' := by
  refine ⟨hpipe, fun c' ↦ ?_, fun id hat ↦ ?_, fun id hid ↦ ?_⟩
  · by_cases hc : c' = c
    · subst hc
      refine .inl ⟨fun id hid hat hc ↦ ?_, hs⟩
      rw [hremovals] at hat
      exact hu id (hnext ▸ hid) hat ((hac id hat).symm.trans hc)
    · obtain ⟨hlist, hplain⟩ := hlists c' hc
      refine h.elsewhere hlist hplain (fun a ha ↦ hframe a ?_ ?_) hnext.ge
        (fun id hat ↦ h.begun id (hremovals ▸ hat)) (fun id _ hat ↦ hac id ?_)
        fun id _ _ ↦ ⟨congrFun hremovals id, hsearching id⟩
      · exact fun ha' ↦ hc ((hp.queued c' a ha).2.1.symm.trans (hp.queued c a ha').2.1)
      · intro ha'
        rcases hadded a ha' with ha' | hat
        · exact hc ((hp.queued c' a ha).2.1.symm.trans (hp.queued c a ha').2.1)
        · exact h.notMem hp (.inr hat) c' ha
      · rwa [hremovals, or_self] at hat
  · exact hnext ▸ h.begun id (hremovals ▸ hat)
  · obtain ⟨hid', hnew⟩ := hunused id hid
    rw [hframe id (h.notMem hp hid' c) hnew, h.unused id hid']

theorem search (h : s.Shows p) (hp : p.Counted capacity) (hu : s.Undisturbed (s.ac id))
    (hstep : s.search id = some s') : s'.Shows p := by
  simp only [LinkedPipe.search, Option.ite_none_right_eq_some, Option.some.injEq] at hstep
  obtain ⟨⟨hid, hcaller, -⟩, rfl⟩ := hstep
  exact h.remains hp hid hcaller
    (fun id' hid' hat hc ↦ absurd hc (hu id' hid' hat)) h.pipe (fun _ _ ↦ rfl) rfl trivial
    (h.whole hu) fun _ _ ↦ rfl

theorem find (h : s.Shows p) (hp : p.Counted capacity) (hstep : s.find id = some s') :
    s'.Shows p ∨ ∃ p', p.search id = some p' ∧ s'.Shows p' := by
  unfold LinkedPipe.find at hstep
  split at hstep
  · rename_i hlooking
    have hat : s.removals id ≠ .idle := by simp [hlooking]
    obtain ⟨hcaller, -, hs, honly⟩ := h.removing hat
    rw [hlooking] at hs
    obtain ⟨hlist, hheld⟩ := hs
    rw [hlist, listSearchKey_nodes hheld, Option.map_some, Option.some.injEq] at hstep
    by_cases hmem : id ∈ p.cmdLists (s.ac id)
    · rw [if_pos hmem] at hstep
      subst hstep
      exact .inl (h.remains hp (h.begun id hat) hcaller honly h.pipe
        (fun _ _ ↦ rfl) rfl rfl ⟨hlist, hheld, hmem⟩ fun _ _ ↦ rfl)
    · rw [if_neg hmem] at hstep
      subst hstep
      refine .inr (h.withdrawn hp hat (congrArg (Pipe.setCaller · id .returned) h.pipe)
        (fun _ _ ↦ rfl) rfl ?_ fun _ _ ↦ rfl)
      rw [List.erase_of_not_mem hmem]
      exact ⟨hlist, hheld⟩
  · simp at hstep

/-- What the statements of `listDelNode` write: the caller stays, or returns. -/
theorem remove_pipe (h : s.Shows p) (at' : PipeCaller) (list : AdList ℕ) :
    ((s.toPipe.setCaller id at').setCmdList (s.ac id) list).withLists p.cmdLists =
      p.setCaller id at' :=
  congrArg (Pipe.setCaller · id at') h.pipe

theorem stay_pipe (h : s.Shows p) (hcaller : s.callers id = .searching) (list : AdList ℕ) :
    ((s.toPipe.setCaller id .searching).setCmdList (s.ac id) list).withLists p.cmdLists = p := by
  rw [h.remove_pipe, Pipe.setCaller, h.callers_eq, ← hcaller, Function.update_eq_self,
    ← h.callers_eq]

theorem delForward (h : s.Shows p) (hp : p.Counted capacity) (hstep : s.delForward id = some s') :
    s'.Shows p := by
  unfold LinkedPipe.delForward at hstep
  split at hstep
  · rename_i node hfound
    have hat : s.removals id ≠ .idle := by simp [hfound]
    obtain ⟨hcaller, hof, hs, honly⟩ := h.removing hat
    rw [hfound] at hof hs
    obtain rfl : node = id := hof
    obtain ⟨h', list', hdel, hs', hframe⟩ := hs.delForward
    rw [hdel] at hstep
    obtain rfl := Option.some.inj hstep
    exact h.remains hp (h.begun node hat) hcaller honly
      (h.stay_pipe hcaller list') (fun c hc ↦ Function.update_of_ne hc _ _) rfl rfl
      (by simpa [Pipe.setCmdList] using hs') hframe
  · simp at hstep

theorem delBackward (h : s.Shows p) (hp : p.Counted capacity)
    (hstep : s.delBackward id = some s') : s'.Shows p := by
  unfold LinkedPipe.delBackward at hstep
  split at hstep
  · rename_i node hforward
    have hat : s.removals id ≠ .idle := by simp [hforward]
    obtain ⟨hcaller, hof, hs, honly⟩ := h.removing hat
    rw [hforward] at hof hs
    obtain rfl : node = id := hof
    obtain ⟨h', list', hdel, hs', hframe⟩ := hs.delBackward
    rw [hdel] at hstep
    obtain rfl := Option.some.inj hstep
    exact h.remains hp (h.begun node hat) hcaller honly
      (h.stay_pipe hcaller list') (fun c hc ↦ Function.update_of_ne hc _ _) rfl rfl
      (by simpa [Pipe.setCmdList] using hs') hframe
  · simp at hstep

theorem delFree (h : s.Shows p) (hp : p.Counted capacity) (hstep : s.delFree id = some s') :
    ∃ p', p.search id = some p' ∧ s'.Shows p' := by
  unfold LinkedPipe.delFree at hstep
  split at hstep
  · rename_i node hbackward
    have hat : s.removals id ≠ .idle := by simp [hbackward]
    obtain ⟨-, hof, hs, -⟩ := h.removing hat
    rw [hbackward] at hof hs
    obtain rfl : node = id := hof
    obtain ⟨h', list', hdel, hs', hframe⟩ := hs.delFree
    rw [hdel] at hstep
    obtain rfl := Option.some.inj hstep
    exact h.withdrawn hp hat (h.remove_pipe .returned list')
      (fun c hc ↦ Function.update_of_ne hc _ _) rfl (by simpa [Pipe.setCmdList] using hs') hframe
  · simp at hstep

theorem enqueue (h : s.Shows p) (hp : p.Counted capacity)
    (hu : s.connected = true → ∀ c ∈ s.ctx, s.Undisturbed c) (hstep : s.enqueue id = some s') :
    ∃ p', p.enqueue id = some p' ∧ s'.Shows p' := by
  simp only [LinkedPipe.enqueue, Option.ite_none_right_eq_some] at hstep
  obtain ⟨⟨hid, hentered, hfree⟩, hstep⟩ := hstep
  have hif : id < p.next ∧ p.callers id = .entered ∧ ¬p.loop.Locked := by
    rw [← h.pipe]
    exact ⟨hid, hentered, hfree⟩
  have hctx : p.ctx = s.ctx := (congrArg Pipe.ctx h.pipe).symm
  have hconnected : p.connected = s.connected := (congrArg Pipe.connected h.pipe).symm
  have hreturned : (s.toPipe.setCaller id .returned).withLists p.cmdLists =
      p.setCaller id .returned := congrArg (Pipe.setCaller · id .returned) h.pipe
  have hleave := h.keeps (.move (by simp [hentered]) (by simp)
    rfl rfl rfl rfl : s.toPipe.Keeps (s.toPipe.setCaller id .returned))
  rw [hreturned] at hleave
  simp only [Pipe.enqueue, if_pos hif, hctx, hconnected]
  cases hsome : s.ctx with
  | none =>
      simp only [hsome] at hstep ⊢
      obtain rfl := Option.some.inj hstep
      exact ⟨_, rfl, hleave⟩
  | some c =>
      simp only [hsome] at hstep ⊢
      split at hstep
      · rename_i hup
        obtain ⟨hlist, hheld⟩ := h.whole (hu hup c hsome)
        obtain ⟨h', hadd, hheld', hframe⟩ :=
          listAddNodeTail_nodes hheld (h.unused id (.inr hentered))
        rw [hlist, hadd, Option.map_some] at hstep
        obtain rfl := Option.some.inj hstep
        have hne : ∀ id', s.callers id' = .searching → id' ≠ id := by
          rintro id' hat rfl
          simp [hentered] at hat
        refine ⟨_, if_pos hup, h.changed (c := c) hp (hu hup c hsome) ?_ rfl rfl (fun id' hat ↦ ?_)
          (fun id' hat ↦ ?_) (fun c' hc ↦ ?_) ?_ (fun a ha ha' ↦ hframe a ha ?_)
          (fun id' hmem ↦ ?_) fun id' hid' ↦ ?_⟩
        · exact congrArg (fun q : Pipe (List ℕ) ↦
            { (q.setCaller id .writing).setCmdList c (p.cmdLists c ++ [id]) with
              ac := Function.update q.ac id c
              reference := Function.update q.reference id 2 }) h.pipe
        · exact Function.update_of_ne (hne id' (h.removing hat).1) _ _
        · exact (Function.update_of_ne (hne id' hat) _ _).trans hat
        · exact ⟨Function.update_of_ne hc _ _, Function.update_of_ne hc _ _⟩
        · simpa [Pipe.setCmdList] using ⟨rfl, hheld'⟩
        · rintro rfl
          simp [Pipe.setCmdList] at ha'
        · have hmem' : id' ∈ p.cmdLists c ∨ id' = id := by simpa [Pipe.setCmdList] using hmem
          exact hmem'.imp_right fun heq ↦ (congrArg s.callers heq).trans hentered
        · have hne' : id' ≠ id := by
            rintro rfl
            rcases hid' with hle | hat
            · exact absurd hid (Nat.not_lt.mpr hle)
            · simp [Pipe.setCmdList, Pipe.setCaller] at hat
          have hid'' : s.next ≤ id' ∨ s.callers id' = .entered := by
            simpa [Pipe.setCmdList, Pipe.setCaller, hne'] using hid'
          exact ⟨hid'', by simpa [Pipe.setCmdList, hne'] using h.notMem hp hid'' c⟩
      · rename_i hdown
        obtain rfl := Option.some.inj hstep
        exact ⟨_, if_neg hdown, hleave⟩

theorem take (h : s.Shows p) (hp : p.Counted capacity) (hu : s.UndisturbedAt s.loop)
    (hstep : s.take = some s') : ∃ p', p.take = some p' ∧ s'.Shows p' := by
  unfold LinkedPipe.take at hstep
  split at hstep
  · rename_i c getNum hloop
    rw [hloop] at hu
    obtain ⟨hlist, hheld⟩ := h.whole hu
    have hloop' : p.loop = .dealing c getNum := (congrArg Pipe.loop h.pipe).symm.trans hloop
    have hidle : ({ s with toPipe := { s.toPipe with loop := .idle } } : LinkedPipe).Shows
        { p with loop := .idle } := by
      have hshows := h.keeps (.of_callers rfl rfl rfl rfl :
        s.toPipe.Keeps { s.toPipe with loop := .idle })
      rwa [show ({ s.toPipe with loop := .idle } : Pipe (AdList ℕ)).withLists p.cmdLists =
        { p with loop := .idle } from
          congrArg (fun q : Pipe (List ℕ) ↦ { q with loop := .idle }) h.pipe] at hshows
    rw [hlist] at hstep
    cases hcons : p.cmdLists c with
    | nil =>
        rw [hcons] at hstep
        obtain rfl := Option.some.inj hstep
        exact ⟨_, by simp only [Pipe.take, hloop', hcons], hidle⟩
    | cons id rest =>
        rw [hcons] at hstep hheld
        obtain ⟨⟨cell, hcell, hvalue, -⟩, h', hdel, hheld', hframe⟩ := listDelNode_nodes hheld
        have hlen : (contents (id :: rest)).header.len ≠ 0 := by simp [contents, Contents.header]
        have hhead : (contents (id :: rest)).header.head = some id := rfl
        rw [if_neg hlen, hhead] at hstep
        simp only [hcell, hdel, hvalue, Option.bind_some, Option.map_some, Option.some.injEq]
          at hstep
        subst hstep
        refine ⟨_, by simp only [Pipe.take, hloop', hcons]; rfl, h.changed (c := c) hp hu ?_ rfl
          rfl (fun _ _ ↦ rfl) (fun _ hat ↦ hat) (fun c' hc ↦ ?_) ?_ (fun a ha _ ↦ hframe a ?_)
          (fun id' hmem ↦ ?_) fun id' hid' ↦ ?_⟩
        · exact congrArg (fun q : Pipe (List ℕ) ↦
            { q.setCmdList c rest with
              dispatched := Function.update q.dispatched id true
              loop := if getNum - 1 ≤ 0 then .idle else .dealing c (getNum - 1) }) h.pipe
        · exact ⟨Function.update_of_ne hc _ _, Function.update_of_ne hc _ _⟩
        · simpa [Pipe.setCmdList] using ⟨rfl, hheld'⟩
        · rwa [← hcons]
        · have hmem' : id' ∈ rest := by simpa [Pipe.setCmdList] using hmem
          exact .inl (hcons ▸ List.mem_cons_of_mem id hmem')
        · refine ⟨hid', fun hmem ↦ h.notMem hp hid' c ?_⟩
          have hmem' : id' ∈ rest := by simpa [Pipe.setCmdList] using hmem
          exact hcons ▸ List.mem_cons_of_mem id hmem'
  · simp at hstep

theorem disconnect (h : s.Shows p) (hp : p.Counted capacity) (hu : s.Undisturbed c)
    (hstep : s.disconnect c = some s') : ∃ p', p.disconnect c = some p' ∧ s'.Shows p' := by
  simp only [LinkedPipe.disconnect, Option.ite_none_right_eq_some] at hstep
  obtain ⟨hif, hstep⟩ := hstep
  have hif' : p.loop = .idle ∧ p.links c = .connected := by
    rw [← h.pipe]
    exact hif
  obtain ⟨hlist, hheld⟩ := h.whole hu
  have hlength : (p.cmdLists c).length ≤ s.next := by
    have hsub : p.cmdLists c ⊆ List.range s.next := fun id hid ↦
      List.mem_range.mpr (h.next_eq ▸ (hp.queued c id hid).1)
    simpa using ((hp.nodup c).subperm hsub).length_le
  obtain ⟨h', hsweep, hframe⟩ := sweep_spec hheld hlength s.reference
  rw [hlist, hsweep, Option.map_some] at hstep
  obtain rfl := Option.some.inj hstep
  refine ⟨_, if_pos hif', h.changed (c := c) hp hu ?_ rfl rfl (fun _ _ ↦ rfl) (fun _ hat ↦ hat)
    (fun c' hc ↦ ?_) ?_ (fun a ha _ ↦ hframe a ha) (fun id' hmem ↦ ?_) fun id' hid' ↦ ?_⟩
  · refine congrArg (fun q : Pipe (List ℕ) ↦
      { q.setCmdList c [] with
        reference := fun id ↦ if id ∈ p.cmdLists c then q.reference id - 1 else q.reference id
        connected := false
        links := Function.update q.links c .torn }) h.pipe
  · exact ⟨Function.update_of_ne hc _ _, Function.update_of_ne hc _ _⟩
  · simpa [Pipe.setCmdList] using ⟨rfl, ⟨trivial, List.nodup_nil⟩⟩
  · simp [Pipe.setCmdList] at hmem
  · exact ⟨hid', by simp [Pipe.setCmdList]⟩

/-- In a step of the linked lists the plain ones take the same step, or none. -/
theorem step (h : s.Shows p) (hp : p.Counted capacity) {a : Action}
    (hassumed : s.Assumed capacity a) (hapart : s.Apart a) (hstep : s.step capacity a = some s') :
    s'.Shows p ∨ ∃ b p', p.Assumed capacity b ∧ p.step capacity b = some p' ∧ s'.Shows p' := by
  have hframe : ∀ b, s.toPipe.Assumed capacity b → p.Assumed capacity b := fun b hb ↦ by
    rw [← h.pipe]
    cases b <;> exact hb
  cases a with
  | enter =>
      obtain ⟨p', hp', hs'⟩ := h.plainly (g := Pipe.enter) (fun _ _ ↦ rfl)
        (fun _ ↦ Pipe.enter_keeps) hstep
      exact .inr ⟨.enter, p', hframe _ hassumed, hp', hs'⟩
  | refuse id =>
      obtain ⟨p', hp', hs'⟩ := h.plainly (g := (Pipe.refuse · id))
        (fun s l ↦ s.refuse_withLists l id) (fun _ ↦ Pipe.refuse_keeps) hstep
      exact .inr ⟨.refuse id, p', trivial, hp', hs'⟩
  | enqueue id =>
      obtain ⟨p', hp', hs'⟩ := h.enqueue hp hapart hstep
      exact .inr ⟨.enqueue id, p', trivial, hp', hs'⟩
  | write id =>
      obtain ⟨p', hp', hs'⟩ := h.plainly (g := (Pipe.write capacity · id))
        (fun s l ↦ s.write_withLists l capacity id) (fun _ ↦ Pipe.write_keeps) hstep
      exact .inr ⟨.write id, p', trivial, hp', hs'⟩
  | countDown id =>
      obtain ⟨p', hp', hs'⟩ := h.plainly (g := (Pipe.countDown · id))
        (fun s l ↦ s.countDown_withLists l id) (fun _ ↦ Pipe.countDown_keeps) hstep
      exact .inr ⟨.countDown id, p', trivial, hp', hs'⟩
  | search id => exact .inl (h.search hp hapart.1 hstep)
  | find id =>
      exact (h.find hp hstep).imp_right fun ⟨p', hp', hs'⟩ ↦ ⟨.search id, p', trivial, hp', hs'⟩
  | delForward id => exact .inl (h.delForward hp hstep)
  | delBackward id => exact .inl (h.delBackward hp hstep)
  | delFree id =>
      obtain ⟨p', hp', hs'⟩ := h.delFree hp hstep
      exact .inr ⟨.search id, p', trivial, hp', hs'⟩
  | task k =>
      obtain ⟨p', hp', hs'⟩ := h.plainly (g := (Pipe.task · k))
        (fun s l ↦ s.task_withLists l k) (fun _ ↦ Pipe.task_keeps) hstep
      exact .inr ⟨.task k, p', trivial, hp', hs'⟩
  | lock =>
      obtain ⟨p', hp', hs'⟩ := h.plainly (g := Pipe.lock) Pipe.lock_withLists
        (fun _ ↦ Pipe.lock_keeps) hstep
      exact .inr ⟨.lock, p', trivial, hp', hs'⟩
  | take =>
      obtain ⟨p', hp', hs'⟩ := h.take hp hapart hstep
      exact .inr ⟨.take, p', trivial, hp', hs'⟩
  | reply id =>
      obtain ⟨p', hp', hs'⟩ := h.plainly (g := (Pipe.reply · id))
        (fun s l ↦ s.reply_withLists l id) (fun _ ↦ Pipe.reply_keeps) hstep
      exact .inr ⟨.reply id, p', trivial, hp', hs'⟩
  | disconnect c =>
      obtain ⟨p', hp', hs'⟩ := h.disconnect hp hapart hstep
      exact .inr ⟨.disconnect c, p', trivial, hp', hs'⟩
  | attempt c =>
      obtain ⟨p', hp', hs'⟩ := h.plainly (g := (Pipe.attempt · c))
        (fun s l ↦ s.attempt_withLists l c) (fun _ ↦ Pipe.attempt_keeps) hstep
      exact .inr ⟨.attempt c, p', hframe _ hassumed, hp', hs'⟩
  | giveUp =>
      obtain ⟨p', hp', hs'⟩ := h.plainly (g := Pipe.giveUp) Pipe.giveUp_withLists
        (fun _ ↦ Pipe.giveUp_keeps) hstep
      exact .inr ⟨.giveUp, p', trivial, hp', hs'⟩
  | connect c =>
      obtain ⟨p', hp', hs'⟩ := h.plainly (g := (Pipe.connect · c))
        (fun s l ↦ s.connect_withLists l c) (fun _ ↦ Pipe.connect_keeps) hstep
      exact .inr ⟨.connect c, p', hframe _ hassumed, hp', hs'⟩
  | fail c =>
      obtain ⟨p', hp', hs'⟩ := h.plainly (g := (Pipe.fail · c))
        (fun s l ↦ s.fail_withLists l c) (fun _ ↦ Pipe.fail_keeps) hstep
      exact .inr ⟨.fail c, p', trivial, hp', hs'⟩

theorem roused (h : s.Shows p) (hroused : p.Roused) : s.Roused := by
  intro hconnected hidle c hctx
  rw [← h.pipe] at hroused
  obtain ⟨hlength, hpending⟩ := hroused hconnected hidle c hctx
  rw [h.len]
  exact ⟨hlength, fun hne ↦ hpending (List.ne_nil_of_length_pos (Nat.pos_of_ne_zero hne))⟩

end Shows

theorem fresh_shows : fresh.Shows Pipe.fresh where
  pipe := rfl
  list := fun _ ↦ .inl ⟨fun _ _ hat ↦ absurd rfl hat, rfl, trivial, List.nodup_nil⟩
  begun := fun _ hat ↦ absurd rfl hat
  unused := fun _ _ ↦ rfl

/-- The run with plain lists behind a run with linked ones. -/
theorem apart_shows (capacity : ℕ) {s : LinkedPipe}
    (h : (machine capacity).Reach (fun s a ↦ s.Assumed capacity a ∧ s.Apart a) s) :
    ∃ p, (Pipe.machine capacity).Reach (Pipe.Assumed capacity) p ∧ s.Shows p := by
  induction h with
  | start h0 => exact h0 ▸ ⟨_, .start rfl, fresh_shows⟩
  | step a _ hguard hstep ih =>
      obtain ⟨p, hreach, hshows⟩ := ih
      rcases hshows.step (Pipe.assumed_counted hreach) hguard.1 hguard.2 hstep with
        hs' | ⟨b, p', hb, hp', hs'⟩
      · exact ⟨p, hreach, hs'⟩
      · exact ⟨p', .step b hreach hb hp', hs'⟩

/-- In every run with at most `capacity` callers inside, in which no one else comes to a
list while a caller takes its command back, no wake-up is lost. -/
theorem apart_roused (capacity : ℕ) {s : LinkedPipe}
    (h : (machine capacity).Reach (fun s a ↦ s.Assumed capacity a ∧ s.Apart a) s) :
    s.Roused := by
  obtain ⟨p, hreach, hshows⟩ := apart_shows capacity h
  exact hshows.roused (Pipe.assumed_roused hreach)

/-- A pipe of two bytes: a caller takes its command back and leaves its byte behind, the
pipe lives through a reconnect, and a later byte is dropped. -/
theorem apart_roused_full_pipe :
    ∃ s, (machine 2).Reach (fun s a ↦ s.Assumed 2 a ∧ s.Apart a) s ∧ s.connected = true ∧
      (s.cmdLists 1).len = 2 ∧ s.bytes = 2 ∧ s.Roused := by
  obtain ⟨s, hrun, hfull⟩ := (machine 2).run_spec fresh
    [.attempt 0, .connect 0, .enter, .enqueue 0, .write 0, .countDown 0, .search 0, .find 0,
      .delForward 0, .delBackward 0, .delFree 0, .disconnect 0, .attempt 1, .connect 1, .enter,
      .enqueue 1, .write 1, .countDown 1, .search 1, .find 1, .delForward 1, .delBackward 1,
      .delFree 1, .enter, .enqueue 2, .write 2, .enter, .enqueue 3, .write 3]
    (fun s ↦ decide (s.connected = true ∧ (s.cmdLists 1).len = 2 ∧ s.bytes = 2)) (by decide)
  have hreach : (machine 2).Reach (fun s a ↦ s.Assumed 2 a ∧ s.Apart a) s :=
    (Machine.Reach.start rfl).run (by decide) hrun
  obtain ⟨hconnected, hlen, hbytes⟩ := of_decide_eq_true hfull
  exact ⟨s, hreach, hconnected, hlen, hbytes, apart_roused 2 hreach⟩

/-- A caller has taken its node out of the list forwards when another caller appends: the
new node hangs on the old one and is lost with it.  `taskDeal` finds no first node. -/
theorem overlap_loses :
    ∃ s, (machine 2).Reach (fun s a ↦ s.Assumed 2 a) s ∧ s.callers 1 = .waiting ∧
      (s.cmdLists 0).len = 1 ∧ (s.cmdLists 0).head = none ∧ s.bytes = 0 ∧ ¬s.Roused := by
  obtain ⟨s, hrun, hlost⟩ := (machine 2).run_spec fresh
    [.attempt 0, .connect 0, .enter, .enqueue 0, .write 0, .countDown 0, .search 0, .find 0,
      .delForward 0, .enter, .enqueue 1, .delBackward 0, .delFree 0, .write 1, .task 2, .lock,
      .take]
    (fun s ↦ decide (s.connected = true ∧ s.loop = .idle ∧ s.ctx = some 0 ∧
      s.callers 1 = .waiting ∧ (s.cmdLists 0).len = 1 ∧ (s.cmdLists 0).head = none ∧
      s.bytes = 0 ∧ s.writers = ∅)) (by decide)
  have hreach : (machine 2).Reach (fun s a ↦ s.Assumed 2 a) s :=
    (Machine.Reach.start rfl).run (by decide) hrun
  obtain ⟨hconnected, hidle, hctx, hwaiting, hlen, hhead, hbytes, hwriters⟩ :=
    of_decide_eq_true hlost
  refine ⟨s, hreach, hwaiting, hlen, hhead, hbytes, fun hroused ↦ ?_⟩
  have hlength := (hroused hconnected hidle 0 hctx).1
  rw [hlen, hbytes, hwriters, Finset.card_empty] at hlength
  exact absurd hlength (by decide)

end LinkedPipe

end MuxHiredis
