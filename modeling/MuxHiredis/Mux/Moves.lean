import MuxHiredis.Mux.Record

/-!
# What a step does to one record

Every step of the callers and the event loop is seen from one record: the record
itself, what the event loop is doing with it, whether it is in `cmd_list` or is
the `privdata` of a registered callback, and whether the callback that
`redisProcessCallbacks` has in its local variable is for it.
-/

namespace MuxHiredis

/-- What the event loop is doing with a record. -/
inductive Work where
  | none
  | issue
  | reply (reply : Bool)
  | store (reply : Bool)
  | post
  | destroy
  | free
  | drop
  deriving DecidableEq, Repr

def LoopAt.work (l : LoopAt) (ci : ℕ) : Work :=
  match l with
  | .issuing cj _ => if cj = ci then .issue else .none
  | .replying cj reply _ => if cj = ci then .reply reply else .none
  | .writing cj reply _ => if cj = ci then .store reply else .none
  | .posting cj _ => if cj = ci then .post else .none
  | .destroying cj _ => if cj = ci then .destroy else .none
  | .freeing cj _ => if cj = ci then .free else .none
  | .dropping cj => if cj = ci then .drop else .none
  | _ => .none

theorem LoopAt.work_resume (next : Resume) (ci : ℕ) : next.at.work ci = .none := by
  cases next <;> rfl

theorem LoopAt.work_ite (c : Prop) [Decidable c] (l l' : LoopAt) (ci : ℕ) :
    (if c then l else l').work ci = if c then l.work ci else l'.work ci := by
  split <;> rfl

structure Stand where
  record : CmdRecord
  work : Work
  queued : Prop
  registered : Prop
  current : Prop

/-- The record of a caller after its next step; `queued` says whether it is still
in `cmd_list`. -/
def CmdRecord.stepCaller (connected hasCtx queued : Bool) (r : CmdRecord) : CmdRecord :=
  match r.pc with
  | .absent | .done => r
  | .created => r.goto .locked
  | .locked => if hasCtx then (r.count 1).goto .counted else r.goto .noContext
  | .noContext => r.free.goto .done
  | .counted => r.goto (if connected then .adding else .refused)
  | .refused => r.touch.goto .refusedFreeing
  | .refusedFreeing => r.free.goto .refusedFreed
  | .refusedFreed => r.goto .done
  | .adding => (r.put .queued).goto .added
  | .added => r.goto .looking
  | .looking => r.touch.goto (if r.reply then .reading else .waiting)
  | .waiting => r.touch.goto .reading
  | .reading => r.touch.goto .dropping
  | .dropping => (r.count (-1)).goto (if r.reference - 1 ≤ 0 then .destroying else .searching)
  | .destroying => r.touch.goto .freeing
  | .freeing => r.free.goto .done
  | .searching => r.goto (if queued then .withdrawing else .checking)
  | .withdrawing => if queued then (r.put .withdrawn).goto .checking else r.goto .checking
  | .checking => r.goto (if connected then .done else .destroying)

namespace Sharing

def stand (s : Sharing) (ci : ℕ) : Stand where
  record := s.records ci
  work := s.loop.work ci
  queued := ci ∈ s.cmdList
  registered := s.ac.Holds ci
  current := s.cb.For ci

/-- Whether a record is in `cmd_list` after the step of its caller. -/
def queuedAfter (s : Sharing) (ci : ℕ) : Prop :=
  match (s.records ci).pc with
  | .adding => True
  | .withdrawing => False
  | _ => ci ∈ s.cmdList

/-- Where a record can stand after a step. -/
inductive Move (s : Sharing) (ci : ℕ) : Action → Stand → Prop
  | rest {a : Action} {current : Prop} (h : current → s.cb.For ci) :
      Move s ci a { s.stand ci with current := current }
  | call {cmd : List UInt8} (h : (s.records ci).pc = .absent) :
      Move s ci (.call ci cmd) { s.stand ci with record := .create cmd }
  | caller (habsent : (s.records ci).pc ≠ .absent) (hdone : (s.records ci).pc ≠ .done) :
      Move s ci (.caller ci)
        { s.stand ci with
          record := (s.records ci).stepCaller s.connected s.hasCtx (ci ∈ s.cmdList)
          queued := s.queuedAfter ci }
  | repush (hidle : s.loop = .idle) (h : s.ac.flags.monitoring = true) :
      Move s ci .endCall
        { s.stand ci with registered := s.ac.Holds ci ∨ s.cb.For ci, current := False }
  | read {reply : ReplyTree} {cb : RedisCallback} {ac : AsyncContext} (hidle : s.loop = .idle)
      (hpick : s.ac.pickCallback s.cb reply = some (.run cb ac)) (hfor : cb.For ci) :
      Move s ci (.read reply)
        { s.stand ci with work := .reply true, registered := ac.Holds ci, current := True }
  | pending {cb : RedisCallback} {ac : AsyncContext} (hloop : s.loop = .ending)
      (hnext : nextPending s.ac = some (cb, ac)) (hfor : cb.For ci) :
      Move s ci .loop { s.stand ci with work := .reply false, registered := ac.Holds ci }
  | take {num : ℕ} (hloop : s.loop = .tasking num) (hqueued : ci ∈ s.cmdList) :
      Move s ci .loop
        { s.stand ci with
          record := (s.records ci).put .issuing, work := .issue, queued := False }
  | issue {num : ℕ} {p : Status × AsyncContext} (hloop : s.loop = .issuing ci num)
      (hcmd : s.ac.asyncCommand (some 0) ci (s.records ci).cmd = some p) :
      Move s ci .loop
        { s.stand ci with
          record := (s.records ci).touch.put (if p.1 = .ok then .held else .refused)
          work := .none
          registered := p.2.Holds ci }
  | replaced {cj num : ℕ} {p : Status × AsyncContext} (hne : cj ≠ ci)
      (hloop : s.loop = .issuing cj num)
      (hcmd : s.ac.asyncCommand (some 0) cj (s.records cj).cmd = some p) :
      Move s ci .loop { s.stand ci with registered := p.2.Holds ci }
  | countDown {reply : Bool} {next : Resume} (hloop : s.loop = .replying ci reply next) :
      Move s ci .loop
        { s.stand ci with
          record := ((s.records ci).count (-1)).put .called
          work := if (s.records ci).reference - 1 ≤ 0 then .destroy else .store reply }
  | store {reply : Bool} {next : Resume} (hloop : s.loop = .writing ci reply next) :
      Move s ci .loop
        { s.stand ci with record := { (s.records ci).touch with reply := reply }, work := .post }
  | post {next : Resume} (hloop : s.loop = .posting ci next) :
      Move s ci .loop
        { s.stand ci with
          record := { (s.records ci).touch with posts := (s.records ci).posts + 1 }
          work := .none }
  | destroy {next : Resume} (hloop : s.loop = .destroying ci next) :
      Move s ci .loop { s.stand ci with record := (s.records ci).touch, work := .free }
  | free {next : Resume} (hloop : s.loop = .freeing ci next) :
      Move s ci .loop { s.stand ci with record := (s.records ci).free, work := .none }
  | clear (hloop : s.loop = .clearing) (hqueued : ci ∈ s.cmdList) :
      Move s ci .loop
        { s.stand ci with record := (s.records ci).put .taken, work := .drop, queued := False }
  | drop (hloop : s.loop = .dropping ci) :
      Move s ci .loop
        { s.stand ci with
          record := ((s.records ci).count (-1)).put .dropped
          work := if (s.records ci).reference - 1 = 0 then .destroy else .none }
  | scrap {rest : List ℕ} (hloop : s.loop = .scrapping) (hlist : s.cmdList = ci :: rest) :
      Move s ci .loop
        { s.stand ci with record := (s.records ci).free.put .scrapped, queued := False }

variable {s s' : Sharing} {ci cj : ℕ} {a : Action}

theorem Move.same (hrecord : s'.records ci = s.records ci)
    (hwork : s'.loop.work ci = s.loop.work ci) (hqueued : ci ∈ s'.cmdList ↔ ci ∈ s.cmdList)
    (hregistered : s'.ac.Holds ci ↔ s.ac.Holds ci) (hcurrent : s'.cb.For ci → s.cb.For ci) :
    s.Move ci a (s'.stand ci) := by
  have hstand : s'.stand ci = { s.stand ci with current := s'.cb.For ci } := by
    simp only [stand, hrecord, hwork, hqueued, hregistered]
  rw [hstand]
  exact .rest hcurrent

theorem Move.other (hrecord : s'.records ci = s.records ci)
    (hwork : s'.loop.work ci = s.loop.work ci) (hqueued : ci ∈ s'.cmdList ↔ ci ∈ s.cmdList)
    (hac : s'.ac = s.ac) (hcb : s'.cb = s.cb) : s.Move ci a (s'.stand ci) :=
  .same hrecord hwork hqueued (by rw [hac]) (by rw [hcb]; exact id)

/-- What the step of a caller does, wherever it stands. -/
structure CallerStep (s : Sharing) (ci : ℕ) (s' : Sharing) : Prop where
  absent : (s.records ci).pc ≠ .absent
  done : (s.records ci).pc ≠ .done
  records : s'.records = Function.update s.records ci
    ((s.records ci).stepCaller s.connected s.hasCtx (ci ∈ s.cmdList))
  cmdList : s'.cmdList =
    if (s.records ci).pc = .adding then s.cmdList ++ [ci]
    else if (s.records ci).pc = .withdrawing then s.cmdList.erase ci
    else s.cmdList
  loop : s'.loop = s.loop
  ac : s'.ac = s.ac
  cb : s'.cb = s.cb
  connected : s'.connected = s.connected

theorem stepCaller_cases (hstep : s.stepCaller ci = some s') : s.CallerStep ci s' := by
  unfold Sharing.stepCaller at hstep
  cases hpc : (s.records ci).pc <;> simp only [hpc] at hstep
  case absent => simp at hstep
  case done => simp at hstep
  case created =>
      split at hstep
      · obtain rfl := Option.some.inj hstep
        constructor <;> simp [hpc, CmdRecord.stepCaller, Sharing.update]
      · simp at hstep
  case locked =>
      split at hstep <;> rename_i hctx <;> obtain rfl := Option.some.inj hstep <;>
        constructor <;> simp [hpc, CmdRecord.stepCaller, Sharing.update, hctx]
  case withdrawing =>
      split at hstep <;> rename_i hmem <;> obtain rfl := Option.some.inj hstep
      · constructor <;> simp [hpc, CmdRecord.stepCaller, Sharing.update, hmem]
      · have hkeep := List.erase_of_not_mem hmem
        constructor <;> simp [hpc, CmdRecord.stepCaller, Sharing.update, hmem, hkeep]
  all_goals
    obtain rfl := Option.some.inj hstep
    constructor <;> simp [hpc, CmdRecord.stepCaller, Sharing.update]

theorem CallerStep.queued (h : s.CallerStep cj s') (hnodup : s.cmdList.Nodup) :
    cj ∈ s'.cmdList ↔ s.queuedAfter cj := by
  rw [h.cmdList]
  unfold queuedAfter
  cases hpc : (s.records cj).pc <;> simp [hnodup.mem_erase_iff]

theorem CallerStep.others (h : s.CallerStep cj s') {ck : ℕ} (hck : ck ≠ cj) :
    ck ∈ s'.cmdList ↔ ck ∈ s.cmdList := by
  rw [h.cmdList]
  split
  · simp [hck]
  · split
    · exact List.mem_erase_of_ne hck
    · exact Iff.rfl

theorem CallerStep.move (h : s.CallerStep cj s') (hnodup : s.cmdList.Nodup) (ci : ℕ) :
    s.Move ci (.caller cj) (s'.stand ci) := by
  by_cases hci : ci = cj
  · subst hci
    have hstand : s'.stand ci =
        { s.stand ci with
          record := (s.records ci).stepCaller s.connected s.hasCtx (ci ∈ s.cmdList)
          queued := s.queuedAfter ci } := by
      simp only [stand, h.records, Function.update_self, h.loop, h.ac, h.cb, h.queued hnodup]
    rw [hstand]
    exact .caller h.absent h.done
  · exact .other (by rw [h.records, Function.update_of_ne hci]) (by rw [h.loop]) (h.others hci)
      h.ac h.cb

/-- The callback of a reply or of the teardown starts to run: seen from a record
that it is not for. -/
theorem Move.runOther {t : Sharing} {cb : RedisCallback} {reply : Bool} {next : Resume}
    (hidle : s.loop.work ci = .none) (hrecords : t.records = s.records)
    (hlist : t.cmdList = s.cmdList) (htakes : s.ac.Takes cb t.ac)
    (hsub : ∀ cb', t.ac.Registered cb' → s.ac.Registered cb') (hfor : ¬cb.For ci)
    (hcurrent : t.cb.For ci → s.cb.For ci) :
    s.Move ci a ((t.runCallback cb reply next).stand ci) := by
  have hregistered := AsyncContext.holds_of_takes htakes hsub hfor
  rcases t.runCallback_cases cb reply next with ⟨-, hrun⟩ | ⟨hfn, hrun⟩
  · rw [hrun]
    apply Move.same
    · exact congrFun hrecords ci
    · rw [hidle]
      exact LoopAt.work_resume next ci
    · exact Iff.of_eq (congrArg (ci ∈ ·) hlist)
    · exact hregistered
    · exact hcurrent
  · rw [hrun]
    have hne : cb.privdata ≠ ci := fun heq ↦ hfor ⟨hfn, heq⟩
    apply Move.same
    · exact congrFun hrecords ci
    · rw [hidle]
      exact if_neg hne
    · exact Iff.of_eq (congrArg (ci ∈ ·) hlist)
    · exact hregistered
    · exact hcurrent

/-- The same, seen from the record that it is for. -/
theorem stand_run {t : Sharing} {cb : RedisCallback} {reply : Bool} {next : Resume}
    (hfor : cb.For ci) : (t.runCallback cb reply next).stand ci =
      { t.stand ci with work := .reply reply } := by
  rcases t.runCallback_cases cb reply next with ⟨hfn, -⟩ | ⟨-, hrun⟩
  · exact absurd hfn hfor.1
  · rw [hrun]
    simp [stand, LoopAt.work, hfor.2]

theorem nextPending_takes {ac ac' : AsyncContext} {cb : RedisCallback}
    (h : nextPending ac = some (cb, ac')) : ac.Takes cb ac' := by
  unfold nextPending at h
  split at h
  · rename_i p hs
    exact AsyncContext.shiftReplies_takes (Option.some.inj h ▸ hs)
  · split at h
    · rename_i p hs
      exact AsyncContext.shiftInvalid_takes (Option.some.inj h ▸ hs)
    · have hlookup : ∀ {d : CallbackDict} {e : Sigma fun _ ↦ RedisCallback}
          {rest : List (Sigma fun _ ↦ RedisCallback)}, d.entries = e :: rest →
          d.lookup e.1 = some e.2 := by
        intro d e rest hentries
        apply Option.mem_def.mp
        apply AList.mem_lookup_iff.mpr
        rw [hentries]
        exact List.mem_cons_self
      split at h
      · rename_i e rest hentries
        obtain ⟨rfl, rfl⟩ := Prod.mk.inj (Option.some.inj h)
        rintro cb' (h' | h' | ⟨pattern, n, h'⟩)
        · exact Or.inr (Or.inl h')
        · exact Or.inr (Or.inr (Or.inl h'))
        · cases pattern
          · refine (AsyncContext.mem_erase_or (hlookup hentries) h').imp_right fun h' ↦ ?_
            exact Or.inr (Or.inr ⟨false, n, h'⟩)
          · exact Or.inr (Or.inr (Or.inr ⟨true, n, h'⟩))
      · split at h
        · rename_i e rest hentries
          obtain ⟨rfl, rfl⟩ := Prod.mk.inj (Option.some.inj h)
          rintro cb' (h' | h' | ⟨pattern, n, h'⟩)
          · exact Or.inr (Or.inl h')
          · exact Or.inr (Or.inr (Or.inl h'))
          · cases pattern
            · exact Or.inr (Or.inr (Or.inr ⟨false, n, h'⟩))
            · refine (AsyncContext.mem_erase_or (hlookup hentries) h').imp_right fun h' ↦ ?_
              exact Or.inr (Or.inr ⟨true, n, h'⟩)
        · simp at h

theorem Move.work (cj : ℕ) {r : CmdRecord} (hloop : ∀ ck, ck ≠ cj → s.loop.work ck = .none)
    (hloop' : ∀ ck, ck ≠ cj → s'.loop.work ck = .none)
    (hrecords : s'.records = Function.update s.records cj r)
    (hlist : ∀ ck, ck ≠ cj → (ck ∈ s'.cmdList ↔ ck ∈ s.cmdList)) (hac : s'.ac = s.ac)
    (hcb : s'.cb = s.cb) (hself : ci = cj → s.Move ci a { s.stand ci with
      record := r, work := s'.loop.work ci, queued := ci ∈ s'.cmdList }) :
    s.Move ci a (s'.stand ci) := by
  by_cases hci : ci = cj
  · have hstand : s'.stand ci = { s.stand ci with
        record := r, work := s'.loop.work ci, queued := ci ∈ s'.cmdList } := by
      simp only [stand, hrecords, hac, hcb, hci, Function.update_self]
    rw [hstand]
    exact hself hci
  · refine .other ?_ ?_ (hlist ci hci) hac hcb
    · rw [hrecords, Function.update_of_ne hci]
    · rw [hloop ci hci, hloop' ci hci]

theorem LoopStep.move (hnodup : s.cmdList.Nodup) (hstep : s.LoopStep s') (ci : ℕ) :
    s.Move ci .loop (s'.stand ci) := by
  have hpop : ∀ {cj : ℕ} {rest : List ℕ}, s.cmdList = cj :: rest →
      (∀ ck, ck ≠ cj → (ck ∈ rest ↔ ck ∈ s.cmdList)) ∧ (cj ∈ s.cmdList) ∧
        (cj ∈ rest) = False := by
    intro cj rest hlist
    rw [hlist, List.nodup_cons] at hnodup
    refine ⟨fun ck hck ↦ ?_, hlist ▸ List.mem_cons_self, eq_false hnodup.1⟩
    simp [hlist, hck]
  cases hstep with
  | @take num cj rest hl hlist =>
      obtain ⟨hothers, hmem, hout⟩ := hpop hlist
      refine .work cj ?_ ?_ rfl hothers rfl rfl ?_
      · simp [hl, LoopAt.work]
      · intro ck hck
        exact if_neg hck.symm
      · rintro rfl
        simp only [LoopAt.work, if_true, hout]
        exact .take hl hmem
  | taken hl hdone => exact .other rfl (by rw [hl]; rfl) Iff.rfl rfl rfl
  | @issue cj num status ac hl hcmd =>
      by_cases hci : ci = cj
      · subst hci
        have hstand : Sharing.stand { s.update ci ((s.records ci).touch.put
              (if status = .ok then .held else .refused)) with ac := ac, loop := .tasking num } ci =
            { s.stand ci with
              record := (s.records ci).touch.put (if status = .ok then .held else .refused)
              work := .none
              registered := ac.Holds ci } := by
          simp [stand, Sharing.update, LoopAt.work]
        rw [hstand]
        exact .issue hl hcmd
      · have hstand : Sharing.stand { s.update cj ((s.records cj).touch.put
              (if status = .ok then .held else .refused)) with ac := ac, loop := .tasking num } ci =
            { s.stand ci with registered := ac.Holds ci } := by
          simp [stand, Sharing.update, LoopAt.work, hl, hci, Ne.symm hci]
        rw [hstand]
        exact .replaced (Ne.symm hci) hl hcmd
  | @reply cj reply next hl =>
      refine .work cj ?_ ?_ rfl (fun _ _ ↦ Iff.rfl) rfl rfl ?_
      · intro ck hck
        rw [hl]
        exact if_neg hck.symm
      · intro ck hck
        rw [LoopAt.work_ite]
        simp [LoopAt.work, hck.symm]
      · rintro rfl
        have hmove := Move.countDown hl
        rw [LoopAt.work_ite]
        simp only [LoopAt.work, if_true]
        exact hmove
  | @write cj reply next hl =>
      refine .work cj ?_ ?_ rfl (fun _ _ ↦ Iff.rfl) rfl rfl ?_
      · intro ck hck
        rw [hl]
        exact if_neg hck.symm
      · intro ck hck
        exact if_neg hck.symm
      · rintro rfl
        simp only [LoopAt.work, if_true]
        exact .store hl
  | @post cj next hl =>
      refine .work cj ?_ ?_ rfl (fun _ _ ↦ Iff.rfl) rfl rfl ?_
      · intro ck hck
        rw [hl]
        exact if_neg hck.symm
      · intro ck hck
        exact LoopAt.work_resume next ck
      · rintro rfl
        simp only [LoopAt.work_resume]
        exact .post hl
  | @destroy cj next hl =>
      refine .work cj ?_ ?_ rfl (fun _ _ ↦ Iff.rfl) rfl rfl ?_
      · intro ck hck
        rw [hl]
        exact if_neg hck.symm
      · intro ck hck
        exact if_neg hck.symm
      · rintro rfl
        simp only [LoopAt.work, if_true]
        exact .destroy hl
  | @free cj next hl =>
      refine .work cj ?_ ?_ rfl (fun _ _ ↦ Iff.rfl) rfl rfl ?_
      · intro ck hck
        rw [hl]
        exact if_neg hck.symm
      · intro ck hck
        exact LoopAt.work_resume next ck
      · rintro rfl
        simp only [LoopAt.work_resume]
        exact .free hl
  | @pending cb ac hl hnext =>
      by_cases hfor : cb.For ci
      · rw [stand_run hfor]
        exact .pending hl hnext hfor
      · refine .runOther ?_ rfl rfl (nextPending_takes hnext)
          (nextPending_registered hnext).2 hfor id
        rw [hl]
        rfl
  | lose hl hnext hlost hmutex => exact .other rfl (by rw [hl]; rfl) Iff.rfl rfl rfl
  | leave hl hnext hlost => exact .other rfl (by rw [hl]; rfl) Iff.rfl rfl rfl
  | @clear cj rest hl hlist =>
      obtain ⟨hothers, hmem, hout⟩ := hpop hlist
      refine .work cj ?_ ?_ rfl hothers rfl rfl ?_
      · simp [hl, LoopAt.work]
      · intro ck hck
        exact if_neg hck.symm
      · rintro rfl
        simp only [LoopAt.work, if_true, hout]
        exact .clear hl hmem
  | cleared hl hlist => exact .other rfl (by rw [hl]; rfl) Iff.rfl rfl rfl
  | @drop cj hl =>
      refine .work cj ?_ ?_ rfl (fun _ _ ↦ Iff.rfl) rfl rfl ?_
      · intro ck hck
        rw [hl]
        exact if_neg hck.symm
      · intro ck hck
        rw [LoopAt.work_ite]
        simp [LoopAt.work, hck.symm]
      · rintro rfl
        have hmove := Move.drop hl
        rw [LoopAt.work_ite]
        simp only [LoopAt.work, if_true]
        exact hmove
  | unlock hl => exact .other rfl (by rw [hl]; rfl) Iff.rfl rfl rfl
  | @scrap cj rest hl hlist =>
      obtain ⟨hothers, hmem, hout⟩ := hpop hlist
      refine .work cj ?_ ?_ rfl hothers rfl rfl ?_
      · simp [hl, LoopAt.work]
      · intro ck _
        change s.loop.work ck = .none
        simp [hl, LoopAt.work]
      · rintro rfl
        have hmove := Move.scrap hl hlist
        simpa [stand, Sharing.update, hl, LoopAt.work, hout] using hmove
  | scrapped hl hlist => exact .other rfl (by rw [hl]; rfl) Iff.rfl rfl rfl

/-- Every step, seen from one record. -/
theorem step_move (hnodup : s.cmdList.Nodup) (hstep : s.step a = some s') (ci : ℕ) :
    s.Move ci a (s'.stand ci) := by
  cases step_cases hstep with
  | @call cj cmd habsent =>
      by_cases hci : ci = cj
      · subst hci
        have hstand : (s.update ci (.create cmd)).stand ci =
            { s.stand ci with record := .create cmd } := by
          simp [stand, Sharing.update]
        rw [hstand]
        exact .call habsent
      · exact .other (Function.update_of_ne hci ..) rfl Iff.rfl rfl rfl
  | caller hcaller => exact (stepCaller_cases hcaller).move hnodup ci
  | context hmutex => exact .other rfl rfl Iff.rfl rfl rfl
  | task hidle hmutex hconnected => exact .other rfl (by rw [hidle]; rfl) Iff.rfl rfl rfl
  | taskLost hidle hmutex hconnected => exact .other rfl rfl Iff.rfl rfl rfl
  | @read reply cb ac hidle hpick =>
      by_cases hfor : cb.For ci
      · have htrue : cb.For ci = True := eq_true hfor
        rw [stand_run hfor]
        simp only [stand, htrue]
        exact .read hidle hpick hfor
      · refine .runOther ?_ rfl rfl (AsyncContext.pickCallback_takes hpick)
          (AsyncContext.pickCallback_registered hpick).2 hfor fun h ↦ absurd h hfor
        rw [hidle]
        rfl
  | readError hidle hpick =>
      refine .same rfl ?_ Iff.rfl ?_ id
      · rw [hidle]
        rfl
      · rw [AsyncContext.pickCallback_disconnect hpick]
        rfl
  | endCall hidle =>
      have hnull : RedisCallback.null.For ci = False := by
        simp [RedisCallback.For, RedisCallback.null]
      cases hmonitoring : s.ac.flags.monitoring with
      | false => exact .same rfl rfl Iff.rfl Iff.rfl fun h ↦ absurd h (of_eq_false hnull)
      | true =>
          have hpush : AsyncContext.Holds { s.ac with replies := s.ac.replies ++ [s.cb] } ci =
              (s.ac.Holds ci ∨ s.cb.For ci) := by
            simp only [AsyncContext.Holds, AsyncContext.registry, List.mem_append,
              List.mem_singleton, eq_iff_iff]
            constructor
            · rintro ⟨cb, ((h | h) | h) | h, hfor⟩ <;> grind
            · rintro (⟨cb, h, hfor⟩ | h)
              · exact ⟨cb, by grind, hfor⟩
              · exact ⟨s.cb, by grind, h⟩
          have hmove : s.Move ci .endCall _ := .repush hidle hmonitoring
          simpa only [stand, if_true, hnull, hpush] using hmove
  | close hidle hclean => exact .same rfl (by rw [hidle]; rfl) Iff.rfl Iff.rfl id
  | free hidle => exact .same rfl (by rw [hidle]; rfl) Iff.rfl Iff.rfl id
  | loop hloop => exact (loopStep_cases hloop).move hnodup ci

end Sharing

/-! ## In every run -/

/-- The caller has not put its record into `cmd_list` yet. -/
def CallerAt.early : CallerAt → Bool
  | .absent | .created | .locked | .noContext | .counted | .refused | .refusedFreeing
  | .refusedFreed | .adding => true
  | _ => false

/-- What a caller counts: itself, and from its increment to the insertion the list
too. -/
def CallerAt.references : CallerAt → ℤ
  | .created | .locked | .noContext => 1
  | .counted | .refused | .refusedFreeing | .adding => 2
  | .added | .looking | .waiting | .reading | .dropping => 1
  | _ => 0

theorem CallerAt.references_nonneg (pc : CallerAt) : 0 ≤ pc.references := by
  cases pc <;> decide

/-- What the event loop can be doing with a record at a place. -/
def Place.Fits (w : Work) : Place → Prop
  | .taken => w = .drop
  | .issuing => w = .issue
  | .held => w = .none ∨ ∃ reply, w = .reply reply
  | .called => w ≠ .issue ∧ w ≠ .drop
  | .dropped => w = .none ∨ w = .destroy ∨ w = .free
  | _ => w = .none

/-- Where a record can be from what the event loop is doing with it. -/
theorem Place.Fits.place {w : Work} {p : Place} : p.Fits w →
    match w with
    | .none => True
    | .issue => p = .issuing
    | .reply _ => p = .held ∨ p = .called
    | .store _ | .post => p = .called
    | .destroy | .free => p = .called ∨ p = .dropped
    | .drop => p = .taken := by
  cases w <;> cases p <;> simp [Place.Fits]

/-- What is known of a record in every run. -/
structure Stand.Placed (v : Stand) : Prop where
  early : v.record.pc.early = true → v.record.place = .unseen
  alone : v.record.pc.early = true → v.record.pc.references ≠ 0 →
    v.record.reference = v.record.pc.references
  queued : v.queued ↔ v.record.place = .queued
  fits : v.record.place.Fits v.work
  callbacks : v.registered ∨ v.current → v.record.place = .held ∨ v.record.place = .called

/-- A record of which its caller is past the early steps. -/
theorem Stand.Placed.late {v : Stand} (hlate : v.record.pc.early ≠ true)
    (hqueued : v.queued ↔ v.record.place = .queued) (hfits : v.record.place.Fits v.work)
    (hcallbacks : v.registered ∨ v.current →
      v.record.place = .held ∨ v.record.place = .called) : v.Placed :=
  ⟨fun h ↦ absurd h hlate, fun h ↦ absurd h hlate, hqueued, hfits, hcallbacks⟩

namespace CmdRecord

variable (connected hasCtx queued : Bool) (r : CmdRecord)

theorem stepCaller_place : (r.stepCaller connected hasCtx queued).place =
    if r.pc = .adding then .queued
    else if r.pc = .withdrawing ∧ queued = true then .withdrawn
    else r.place := by
  obtain ⟨cmd, reference, reply, posts, freed, stale, pc, place⟩ := r
  cases pc <;> cases hasCtx <;> cases queued <;> rfl

theorem stepCaller_early (h : (r.stepCaller connected hasCtx queued).pc.early = true) :
    r.pc.early = true ∧ r.pc ≠ .adding ∧ r.pc ≠ .withdrawing := by
  obtain ⟨cmd, reference, reply, posts, freed, stale, pc, place⟩ := r
  cases pc
  case looking => cases reply <;> simp [stepCaller, goto, CallerAt.early] at h
  case dropping =>
      simp only [stepCaller, goto] at h
      split at h <;> simp [CallerAt.early] at h
  case searching | withdrawing => cases queued <;> simp [stepCaller, goto, CallerAt.early] at h
  case checking => cases connected <;> simp [stepCaller, goto, CallerAt.early] at h
  case adding => simp [stepCaller, goto, CallerAt.early] at h
  all_goals first
    | exact ⟨rfl, by simp, by simp⟩
    | simp [stepCaller, goto, CallerAt.early] at h

/-- Only its caller counts the references of a record that is not in `cmd_list`. -/
theorem stepCaller_alone (habsent : r.pc ≠ .absent)
    (h : r.pc.early = true → r.pc.references ≠ 0 → r.reference = r.pc.references)
    (hearly : (r.stepCaller connected hasCtx queued).pc.early = true)
    (hne : (r.stepCaller connected hasCtx queued).pc.references ≠ 0) :
    (r.stepCaller connected hasCtx queued).reference =
      (r.stepCaller connected hasCtx queued).pc.references := by
  have hold := h (stepCaller_early _ _ _ _ hearly).1
  obtain ⟨cmd, reference, reply, posts, freed, stale, pc, place⟩ := r
  cases pc
  case absent => exact absurd rfl habsent
  case locked =>
      cases hasCtx <;> simp_all [stepCaller, goto, count, touch, CallerAt.references]
  case counted => cases connected <;> simp_all [stepCaller, goto, CallerAt.references]
  case looking => cases reply <;> simp [stepCaller, goto, CallerAt.early] at hearly
  case searching | withdrawing =>
      cases queued <;> simp [stepCaller, goto, CallerAt.early] at hearly
  case checking => cases connected <;> simp [stepCaller, goto, CallerAt.early] at hearly
  case dropping =>
      simp only [stepCaller, goto] at hearly
      split at hearly <;> simp [CallerAt.early] at hearly
  all_goals simp_all [stepCaller, goto, free, touch, CallerAt.references, CallerAt.early]

end CmdRecord

namespace Sharing

variable {s s' : Sharing} {ci : ℕ} {a : Action} {v : Stand}

theorem placed_caller (h : (s.stand ci).Placed) (habsent : (s.records ci).pc ≠ .absent) :
    Stand.Placed { s.stand ci with
    record := (s.records ci).stepCaller s.connected s.hasCtx (ci ∈ s.cmdList)
    queued := s.queuedAfter ci } := by
  obtain ⟨hearly, halone, hqueued, hfits, hcallbacks⟩ := h
  have halone' := CmdRecord.stepCaller_alone s.connected s.hasCtx (ci ∈ s.cmdList) (s.records ci)
    habsent halone
  change (s.records ci).pc.early = true → (s.records ci).place = .unseen at hearly
  change ci ∈ s.cmdList ↔ (s.records ci).place = .queued at hqueued
  change (s.records ci).place.Fits (s.stand ci).work at hfits
  change _ → (s.records ci).place = .held ∨ (s.records ci).place = .called at hcallbacks
  have hplace := CmdRecord.stepCaller_place s.connected s.hasCtx (ci ∈ s.cmdList) (s.records ci)
  by_cases hadding : (s.records ci).pc = .adding
  · have hunseen := hearly (by simp [hadding, CallerAt.early])
    rw [if_pos hadding] at hplace
    rw [hunseen] at hfits hcallbacks
    constructor
    · exact fun h ↦ absurd hadding (CmdRecord.stepCaller_early _ _ _ _ h).2.1
    · exact halone'
    · simp [queuedAfter, hadding, hplace]
    · exact hplace ▸ hfits
    · exact fun h ↦ absurd (hcallbacks h) (by simp)
  rw [if_neg hadding] at hplace
  by_cases hwithdrawing : (s.records ci).pc = .withdrawing
  · have hout : s.queuedAfter ci = False := by simp [queuedAfter, hwithdrawing]
    by_cases hmem : ci ∈ s.cmdList
    · rw [if_pos ⟨hwithdrawing, decide_eq_true hmem⟩] at hplace
      rw [hqueued.mp hmem] at hfits hcallbacks
      constructor
      · exact fun h ↦ absurd hwithdrawing (CmdRecord.stepCaller_early _ _ _ _ h).2.2
      · exact halone'
      · simp [hout, hplace]
      · exact hplace ▸ hfits
      · exact fun h ↦ absurd (hcallbacks h) (by simp)
    · rw [if_neg (by simp [hmem])] at hplace
      constructor
      · exact fun h ↦ absurd hwithdrawing (CmdRecord.stepCaller_early _ _ _ _ h).2.2
      · exact halone'
      · simpa [hout, hplace] using fun h ↦ hmem (hqueued.mpr h)
      · exact hplace ▸ hfits
      · exact hplace ▸ hcallbacks
  · rw [if_neg fun h ↦ hwithdrawing h.1] at hplace
    constructor
    · exact fun h ↦ hplace.trans (hearly (CmdRecord.stepCaller_early _ _ _ _ h).1)
    · exact halone'
    · have hlist : s.queuedAfter ci = (ci ∈ s.cmdList) := by
        unfold queuedAfter
        split
        · exact absurd ‹_› hadding
        · exact absurd ‹_› hwithdrawing
        · rfl
      rw [hlist, hplace]
      exact hqueued
    · exact hplace ▸ hfits
    · exact hplace ▸ hcallbacks

theorem Move.placed (h : (s.stand ci).Placed) (hmove : s.Move ci a v) : v.Placed := by
  have hplaced := h
  obtain ⟨hearly, halone, hqueued, hfits, hcallbacks⟩ := h
  change ci ∈ s.cmdList ↔ (s.records ci).place = .queued at hqueued
  change (s.records ci).place.Fits (s.loop.work ci) at hfits
  change s.ac.Holds ci ∨ s.cb.For ci → (s.records ci).place = .held ∨
    (s.records ci).place = .called at hcallbacks
  have hlate : (s.records ci).place ≠ .unseen → (s.records ci).pc.early ≠ true :=
    fun hne hpc ↦ hne (hearly hpc)
  cases hmove with
  | rest hcurrent =>
      exact ⟨hearly, halone, hqueued, hfits, fun h ↦ hcallbacks (h.imp_right hcurrent)⟩
  | call habsent =>
      have hplace := hearly (by simp [stand, habsent, CallerAt.early])
      change (s.records ci).place = .unseen at hplace
      rw [hplace] at hqueued hfits hcallbacks
      exact ⟨fun _ ↦ rfl, fun _ _ ↦ rfl, hqueued, hfits, hcallbacks⟩
  | caller habsent => exact placed_caller hplaced habsent
  | repush =>
      refine ⟨hearly, halone, hqueued, hfits, fun h ↦ hcallbacks ?_⟩
      exact h.resolve_right id
  | @read reply cb ac hidle hpick hfor =>
      obtain ⟨hfrom, hsub⟩ := AsyncContext.pickCallback_registered hpick
      have hplace : (s.records ci).place = .held ∨ (s.records ci).place = .called := by
        apply hcallbacks
        rcases hfrom with hreg | rfl
        · exact Or.inl (.of_registered hreg hfor)
        · exact Or.inr hfor
      refine ⟨hearly, halone, hqueued, ?_, fun _ ↦ hplace⟩
      rcases hplace with hplace | hplace <;> simp [stand, hplace, Place.Fits]
  | @pending cb ac hloop hnext hfor =>
      have hplace := hcallbacks (Or.inl (.of_registered (nextPending_registered hnext).1 hfor))
      refine ⟨hearly, halone, hqueued, ?_, fun _ ↦ hplace⟩
      rcases hplace with hplace | hplace <;> simp [stand, hplace, Place.Fits]
  | take hloop hmem =>
      have hplace := hqueued.mp hmem
      rw [hplace] at hcallbacks
      refine .late (hlate (by simp [hplace])) ?_ rfl fun h ↦ ?_
      · simp [CmdRecord.put]
      · exact absurd (hcallbacks h) (by simp)
  | @issue num p hloop hcmd =>
      have hplace : (s.records ci).place = .issuing := by
        simp only [hloop, LoopAt.work, if_true] at hfits
        exact hfits.place
      rw [hplace] at hcallbacks
      refine .late (hlate (by simp [hplace])) ?_ ?_ ?_
      · change ci ∈ s.cmdList ↔ _
        rw [hqueued, hplace]
        cases p.1 <;> simp [CmdRecord.put]
      · cases hp : p.1 <;> simp [CmdRecord.put, Place.Fits]
      · rintro (hreg | hcurrent)
        · rcases hreg.of_asyncCommand hcmd with hold | ⟨hok, -⟩
          · exact absurd (hcallbacks (Or.inl hold)) (by simp)
          · exact Or.inl (by simp [CmdRecord.put, hok])
        · exact absurd (hcallbacks (Or.inr hcurrent)) (by simp)
  | @replaced cj num p hne hloop hcmd =>
      refine ⟨hearly, halone, hqueued, hfits, fun h ↦ hcallbacks ?_⟩
      rcases h with hreg | hcurrent
      · exact Or.inl ((hreg.of_asyncCommand hcmd).resolve_right fun h ↦ hne h.2)
      · exact Or.inr hcurrent
  | countDown hloop =>
      have hplace : (s.records ci).place = .held ∨ (s.records ci).place = .called := by
        simp only [hloop, LoopAt.work, if_true] at hfits
        exact hfits.place
      refine .late (hlate (by rcases hplace with h | h <;> simp [h])) ?_ ?_ fun _ ↦ Or.inr rfl
      · change ci ∈ s.cmdList ↔ _
        rw [hqueued]
        rcases hplace with h | h <;> simp [h, CmdRecord.put]
      · change _ ≠ Work.issue ∧ _ ≠ Work.drop
        split <;> simp
  | store hloop =>
      have hplace : (s.records ci).place = .called := by
        simp only [hloop, LoopAt.work, if_true] at hfits
        exact hfits.place
      refine ⟨hearly, halone, hqueued, ?_, hcallbacks⟩
      simp [CmdRecord.touch, hplace, Place.Fits]
  | post hloop =>
      have hplace : (s.records ci).place = .called := by
        simp only [hloop, LoopAt.work, if_true] at hfits
        exact hfits.place
      refine ⟨hearly, halone, hqueued, ?_, hcallbacks⟩
      simp [CmdRecord.touch, hplace, Place.Fits]
  | destroy hloop =>
      have hplace : (s.records ci).place = .called ∨ (s.records ci).place = .dropped := by
        simp only [hloop, LoopAt.work, if_true] at hfits
        exact hfits.place
      refine ⟨hearly, halone, hqueued, ?_, hcallbacks⟩
      rcases hplace with h | h <;> simp [CmdRecord.touch, h, Place.Fits]
  | free hloop =>
      have hplace : (s.records ci).place = .called ∨ (s.records ci).place = .dropped := by
        simp only [hloop, LoopAt.work, if_true] at hfits
        exact hfits.place
      refine ⟨hearly, halone, hqueued, ?_, hcallbacks⟩
      rcases hplace with h | h <;> simp [CmdRecord.free, h, Place.Fits]
  | clear hloop hmem =>
      have hplace := hqueued.mp hmem
      rw [hplace] at hcallbacks
      refine .late (hlate (by simp [hplace])) ?_ rfl fun h ↦ ?_
      · simp [CmdRecord.put]
      · exact absurd (hcallbacks h) (by simp)
  | drop hloop =>
      have hplace : (s.records ci).place = .taken := by
        simp only [hloop, LoopAt.work, if_true] at hfits
        exact hfits.place
      rw [hplace] at hcallbacks
      refine .late (hlate (by simp [hplace])) ?_ ?_ fun h ↦ ?_
      · change ci ∈ s.cmdList ↔ _
        rw [hqueued, hplace]
        simp [CmdRecord.put]
      · change _ = Work.none ∨ _ = Work.destroy ∨ _ = Work.free
        split <;> simp
      · exact absurd (hcallbacks h) (by simp)
  | @scrap rest hloop hlist =>
      have hplace := hqueued.mp (hlist ▸ List.mem_cons_self)
      rw [hplace] at hcallbacks hfits
      refine .late (hlate (by simp [hplace])) ?_ hfits fun h ↦ ?_
      · simp [CmdRecord.put]
      · exact absurd (hcallbacks h) (by simp)

theorem Move.early (hmove : s.Move ci a v) (hearly : v.record.pc.early = true) :
    (s.records ci).pc.early = true := by
  cases hmove with
  | call habsent =>
      rw [habsent]
      rfl
  | caller => exact (CmdRecord.stepCaller_early _ _ _ _ hearly).1
  | _ => exact hearly

/-- Only its own steps move a caller. -/
theorem Move.pc_eq (hmove : s.Move ci a v) (hne : a ≠ .caller ci)
    (habsent : (s.records ci).pc ≠ .absent) : v.record.pc = (s.records ci).pc := by
  cases hmove with
  | call h => exact absurd h habsent
  | caller => exact absurd rfl hne
  | _ => rfl

theorem runCallback_cmdList (t : Sharing) (cb : RedisCallback) (reply : Bool) (next : Resume) :
    (t.runCallback cb reply next).cmdList = t.cmdList := by
  rcases t.runCallback_cases cb reply next with ⟨-, h⟩ | ⟨-, h⟩ <;> rw [h]

theorem LoopStep.cmdList_sublist (hstep : s.LoopStep s') : s'.cmdList.Sublist s.cmdList := by
  have hpop : ∀ {cj : ℕ} {rest : List ℕ}, s.cmdList = cj :: rest → rest.Sublist s.cmdList := by
    intro cj rest hlist
    rw [hlist]
    exact List.sublist_cons_self cj rest
  cases hstep with
  | take _ hlist => exact hpop hlist
  | clear _ hlist => exact hpop hlist
  | scrap _ hlist => exact hpop hlist
  | pending => rw [runCallback_cmdList]
  | _ => exact List.Sublist.refl _

theorem step_cmdList (hstep : s.step a = some s') :
    s'.cmdList.Sublist s.cmdList ∨
      ∃ cj, (s.records cj).pc = .adding ∧ s'.cmdList = s.cmdList ++ [cj] := by
  cases step_cases hstep with
  | @caller cj _ hcaller =>
      rw [(stepCaller_cases hcaller).cmdList]
      split
      · rename_i hadding
        exact Or.inr ⟨cj, hadding, rfl⟩
      · left
        split
        · exact List.erase_sublist
        · exact List.Sublist.refl _
  | loop hloop => exact Or.inl (loopStep_cases hloop).cmdList_sublist
  | read =>
      left
      rw [runCallback_cmdList]
  | _ => exact Or.inl (List.Sublist.refl _)

/-- A record that the event loop has seen has a caller. -/
theorem present_of_place (h : (s.stand ci).Placed) (hplace : (s.records ci).place ≠ .unseen) :
    (s.records ci).pc ≠ .absent := by
  intro habsent
  exact hplace (h.early (by simp [stand, habsent, CallerAt.early]))

/-- What holds of `cmd_list` and of every record in every run. -/
structure Placed (s : Sharing) : Prop where
  nodup : s.cmdList.Nodup
  stands : ∀ ci, (s.stand ci).Placed

theorem Placed.step (h : s.Placed) (hstep : s.step a = some s') : s'.Placed := by
  constructor
  · rcases step_cmdList hstep with hsub | ⟨cj, hpc, hlist⟩
    · exact h.nodup.sublist hsub
    · rw [hlist]
      refine h.nodup.append (List.nodup_singleton cj) ?_
      have hplaced := h.stands cj
      have hunseen : (s.records cj).place = .unseen :=
        hplaced.early (by simp [stand, hpc, CallerAt.early])
      have hout : cj ∉ s.cmdList := by
        intro hmem
        have hqueued : (s.records cj).place = .queued := hplaced.queued.mp hmem
        simp [hunseen] at hqueued
      simpa using hout
  · intro ci
    exact (step_move h.nodup hstep ci).placed (h.stands ci)

theorem fresh_placed : fresh.Placed := by
  refine ⟨List.nodup_nil, fun ci ↦ ⟨fun _ ↦ rfl, fun _ h ↦ absurd rfl h, ?_, rfl, ?_⟩⟩
  · simp [stand, fresh, CmdRecord.absent]
  · rintro (⟨cb, hcb, -⟩ | hcurrent)
    · simp [fresh, AsyncContext.redisAsyncInitialize, AsyncContext.registry] at hcb
    · simp [stand, fresh, RedisCallback.For, RedisCallback.null] at hcurrent

end Sharing

end MuxHiredis
