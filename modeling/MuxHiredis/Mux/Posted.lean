import MuxHiredis.Mux.Moves

/-!
# The semaphore of a command record

A caller sleeps on `ci->reply_sem`, and only `replyCallback` posts it.
-/

namespace MuxHiredis

/-- The caller has put its record into `cmd_list` and has not come past its wait. -/
def CallerAt.expectant : CallerAt → Bool
  | .added | .looking | .waiting => true
  | _ => false

/-- Nothing has been posted for a caller that will wait. -/
def CmdRecord.Unmet (r : CmdRecord) : Prop := r.pc.expectant = true ∧ r.posts = 0

instance : DecidablePred CmdRecord.Unmet := fun _ ↦ inferInstanceAs (Decidable (_ ∧ _))

/-- The event loop has the record in hand and may still answer it. -/
def Work.serves : Work → Bool
  | .issue | .reply _ | .store _ | .post | .drop => true
  | _ => false

namespace Sharing

/-- The event loop can still come to the record. -/
def Answerable (s : Sharing) (ci : ℕ) : Prop :=
  ci ∈ s.cmdList ∨ s.ac.Holds ci ∨ (s.loop.work ci).serves = true

instance (s : Sharing) : DecidablePred s.Answerable :=
  fun _ ↦ inferInstanceAs (Decidable (_ ∨ _ ∨ _))

/-- No caller sleeps on a record that nothing can answer any more. -/
def Awake (s : Sharing) : Prop :=
  ∀ ci, (s.records ci).pc = .waiting → ¬s.Answerable ci → 0 < (s.records ci).posts

/-- No caller that will wait loses its callback by the command: its own, or another
that was registered before. -/
def Dispatched (s : Sharing) (ci : ℕ) : Option (Status × AsyncContext) → Prop
  | none => True
  | some p =>
      ((s.records ci).Unmet → p.2.Holds ci) ∧
        ∀ cb ∈ s.ac.registry, cb.fn ≠ none → (s.records cb.privdata).Unmet →
          p.2.Holds cb.privdata

instance (s : Sharing) (ci : ℕ) : DecidablePred (s.Dispatched ci)
  | none => .isTrue trivial
  | some _ => inferInstanceAs (Decidable ((_ → _) ∧ ∀ cb ∈ _, _ → _ → _))

def LoopHeeds (s : Sharing) : LoopAt → Prop
  | .issuing ci _ => s.Dispatched ci (s.ac.asyncCommand (some 0) ci (s.records ci).cmd)
  | .dropping ci => ¬(s.records ci).Unmet
  | .scrapping => ∀ ci ∈ s.cmdList.head?, ¬(s.records ci).Unmet
  | _ => True

instance (s : Sharing) : DecidablePred s.LoopHeeds
  | .issuing ci _ =>
      inferInstanceAs (Decidable
        (s.Dispatched ci (s.ac.asyncCommand (some 0) ci (s.records ci).cmd)))
  | .dropping ci => inferInstanceAs (Decidable ¬(s.records ci).Unmet)
  | .scrapping => inferInstanceAs (Decidable (∀ ci ∈ s.cmdList.head?, ¬(s.records ci).Unmet))
  | .idle | .tasking _ | .replying .. | .writing .. | .posting .. | .destroying .. | .freeing ..
  | .ending | .clearing | .unlocking | .finished => .isTrue trivial

/-- The condition on the steps: the event loop drops, frees or fails to register
only records whose callers have come past their wait, or have been posted. -/
def Heeded (s : Sharing) : Action → Prop
  | .loop => s.LoopHeeds s.loop
  | _ => True

instance (s : Sharing) : DecidablePred s.Heeded
  | .loop => inferInstanceAs (Decidable (s.LoopHeeds s.loop))
  | .call _ _ | .caller _ | .context _ | .task _ | .read _ | .endCall | .close _ | .free =>
      .isTrue trivial

end Sharing

/-- Whoever will wait has the event loop coming for it. -/
structure Stand.Heeded (v : Stand) : Prop where
  served : v.record.Unmet →
    v.record.reference = 2 ∧ (v.queued ∨ v.registered ∨ v.work = .issue ∨
      (∃ reply, v.work = .reply reply) ∨ v.work = .drop) ∨
    (∃ reply, v.work = .store reply) ∨ v.work = .post
  current : v.current → v.record.Unmet →
    (∃ reply, v.work = .reply reply) ∨ (∃ reply, v.work = .store reply) ∨ v.work = .post

namespace CmdRecord

/-- A caller that will wait has just come from `cmd_list`, or could wait before. -/
theorem stepCaller_unmet {connected hasCtx queued : Bool} {r : CmdRecord}
    (h : (r.stepCaller connected hasCtx queued).Unmet) :
    (r.pc = .adding ∨ r.Unmet ∧ r.pc ≠ .withdrawing) ∧
      (r.stepCaller connected hasCtx queued).reference = r.reference := by
  obtain ⟨cmd, reference, reply, posts, freed, stale, pc, place⟩ := r
  cases pc
  case looking => cases reply <;> simp_all [stepCaller, goto, touch, Unmet, CallerAt.expectant]
  case locked => cases hasCtx <;> simp_all [stepCaller, goto, Unmet, CallerAt.expectant]
  case counted => cases connected <;> simp_all [stepCaller, goto, Unmet, CallerAt.expectant]
  case checking => cases connected <;> simp_all [stepCaller, goto, Unmet, CallerAt.expectant]
  case searching | withdrawing =>
      cases queued <;> simp_all [stepCaller, goto, Unmet, CallerAt.expectant]
  case dropping =>
      simp only [stepCaller, goto, Unmet] at h
      split at h <;> simp [CallerAt.expectant] at h
  all_goals simp_all [stepCaller, goto, touch, put, Unmet, CallerAt.expectant]

end CmdRecord

/-- Before the callback, the counter has both references. -/
theorem Stand.Heeded.two {v : Stand} (h : v.Heeded) (hunmet : v.record.Unmet)
    (hstore : ∀ reply, v.work ≠ .store reply) (hpost : v.work ≠ .post) :
    v.record.reference = 2 := by
  rcases h.served hunmet with ⟨hreference, -⟩ | ⟨reply, hwork⟩ | hwork
  · exact hreference
  · exact absurd hwork (hstore reply)
  · exact absurd hwork hpost

namespace Sharing

variable {s s' : Sharing} {ci : ℕ} {a : Action} {v : Stand}

theorem heeded_caller (hplaced : (s.stand ci).Placed) (h : (s.stand ci).Heeded) :
    Stand.Heeded { s.stand ci with
      record := (s.records ci).stepCaller s.connected s.hasCtx (ci ∈ s.cmdList)
      queued := s.queuedAfter ci } := by
  obtain ⟨hserved, hcurrent⟩ := h
  constructor
  · intro hunmet
    obtain ⟨hfrom, hreference⟩ := CmdRecord.stepCaller_unmet hunmet
    rw [hreference]
    rcases hfrom with hadding | ⟨hunmet, hwithdrawing⟩
    · left
      have htwo := hplaced.alone
      simp [stand, hadding, CallerAt.early, CallerAt.references] at htwo
      exact ⟨htwo, Or.inl (by simp [queuedAfter, hadding])⟩
    · have hlist : s.queuedAfter ci = (ci ∈ s.cmdList) := by
        unfold queuedAfter
        split
        · rename_i hadding
          simp [CmdRecord.Unmet, hadding, CallerAt.expectant] at hunmet
        · rename_i hpc
          exact absurd hpc hwithdrawing
        · rfl
      rw [hlist]
      exact hserved hunmet
  · intro hcb hunmet
    rcases (CmdRecord.stepCaller_unmet hunmet).1 with hadding | ⟨hunmet, -⟩
    · have hplace := hplaced.callbacks (Or.inr hcb)
      have hunseen := hplaced.early (by simp [stand, hadding, CallerAt.early])
      simp [hunseen] at hplace
    · exact hcurrent hcb hunmet

/-- A callback that runs is the first one for a caller that will wait. -/
theorem heeded_run (h : (s.stand ci).Heeded) (hidle : s.loop.work ci = .none)
    {registered current : Prop} (reply : Bool) : Stand.Heeded { s.stand ci with
      work := .reply reply, registered := registered, current := current } := by
  refine ⟨fun hunmet ↦ Or.inl ⟨?_, ?_⟩, fun _ _ ↦ Or.inl ⟨reply, rfl⟩⟩
  · apply h.two hunmet <;> simp [stand, hidle]
  · exact Or.inr (Or.inr (Or.inr (Or.inl ⟨reply, rfl⟩)))

/-- The event loop takes the record from `cmd_list`. -/
theorem heeded_take (hplaced : (s.stand ci).Placed) (h : (s.stand ci).Heeded)
    (hqueued : (s.records ci).place = .queued) {p : Place} {w : Work}
    (hw : w = .issue ∨ w = .drop) : Stand.Heeded { s.stand ci with
      record := (s.records ci).put p, work := w, queued := False } := by
  have hnone : (s.stand ci).work = .none := by
    simpa [stand, hqueued, Place.Fits] using hplaced.fits
  refine ⟨fun hunmet ↦ Or.inl ⟨?_, ?_⟩, fun hcb ↦ ?_⟩
  · apply h.two hunmet <;> simp [hnone]
  · rcases hw with rfl | rfl <;> simp
  · have hplace := hplaced.callbacks (Or.inr hcb)
    simp [stand, hqueued] at hplace

theorem Move.heeded (hplaced : (s.stand ci).Placed) (h : (s.stand ci).Heeded)
    (hheeded : s.Heeded a) (hmove : s.Move ci a v) : v.Heeded := by
  have hfits : (s.records ci).place.Fits (s.loop.work ci) := hplaced.fits
  have hqueued : ci ∈ s.cmdList ↔ (s.records ci).place = .queued := hplaced.queued
  have hall := h
  obtain ⟨hserved, hcurrent⟩ := h
  cases hmove with
  | rest hcb => exact ⟨hserved, fun h ↦ hcurrent (hcb h)⟩
  | call habsent =>
      refine ⟨fun hunmet ↦ ?_, fun _ hunmet ↦ ?_⟩
      all_goals simp [CmdRecord.Unmet, CmdRecord.create, CallerAt.expectant] at hunmet
  | caller => exact heeded_caller hplaced hall
  | repush hidle hmonitoring =>
      refine ⟨fun hunmet ↦ ?_, fun hcb ↦ absurd hcb id⟩
      rcases hserved hunmet with ⟨hreference, hin⟩ | hwork
      · refine Or.inl ⟨hreference, hin.imp_right fun hin ↦ hin.imp_left Or.inl⟩
      · exact Or.inr hwork
  | read hidle hpick hfor =>
      apply heeded_run hall
      rw [hidle]
      rfl
  | pending hloop hnext hfor =>
      apply heeded_run hall
      rw [hloop]
      rfl
  | take hloop hmem =>
      exact heeded_take hplaced hall (hqueued.mp hmem) (Or.inl rfl)
  | @issue num p hloop hcmd =>
      simp only [Heeded, hloop, LoopHeeds, hcmd, Dispatched] at hheeded
      have hwork : (s.stand ci).work = .issue := by simp [stand, hloop, LoopAt.work]
      have hplace : (s.records ci).place = .issuing := by
        simp only [hloop, LoopAt.work, if_true] at hfits
        exact hfits.place
      refine ⟨fun hunmet ↦ Or.inl ⟨?_, Or.inr (Or.inl (hheeded.1 hunmet))⟩, fun hcb ↦ ?_⟩
      · apply hall.two hunmet <;> simp [hwork]
      · have hplace' := hplaced.callbacks (Or.inr hcb)
        simp [stand, hplace] at hplace'
  | @replaced cj num p hne hloop hcmd =>
      simp only [Heeded, hloop, LoopHeeds, hcmd, Dispatched] at hheeded
      refine ⟨fun hunmet ↦ ?_, hcurrent⟩
      have hkeep : s.ac.Holds ci → p.2.Holds ci := by
        rintro ⟨cb, hcb, hfor⟩
        exact hfor.2 ▸ hheeded.2 cb hcb hfor.1 (hfor.2 ▸ hunmet)
      rcases hserved hunmet with ⟨hreference, hin⟩ | hwork
      · exact Or.inl ⟨hreference, hin.imp_right fun hin ↦ hin.imp_left hkeep⟩
      · exact Or.inr hwork
  | @countDown reply next hloop =>
      have hwork : (s.stand ci).work = .reply reply := by simp [stand, hloop, LoopAt.work]
      have hstore : (s.records ci).Unmet → (if (s.records ci).reference - 1 ≤ 0 then Work.destroy
          else .store reply) = .store reply := by
        intro hunmet
        have hreference : (s.records ci).reference = 2 := by
          apply hall.two hunmet <;> simp [hwork]
        exact if_neg (by omega)
      refine ⟨fun hunmet ↦ ?_, fun _ hunmet ↦ ?_⟩
      · exact Or.inr (Or.inl ⟨reply, hstore hunmet⟩)
      · exact Or.inr (Or.inl ⟨reply, hstore hunmet⟩)
  | store hloop =>
      exact ⟨fun _ ↦ Or.inr (Or.inr rfl), fun _ _ ↦ Or.inr (Or.inr rfl)⟩
  | post hloop =>
      have hposted : ∀ {r : CmdRecord} {n : ℕ}, ¬{ r with posts := n + 1 }.Unmet :=
        fun hunmet ↦ Nat.succ_ne_zero _ hunmet.2
      exact ⟨fun hunmet ↦ absurd hunmet hposted, fun _ hunmet ↦ absurd hunmet hposted⟩
  | @destroy next hloop =>
      have hwork : (s.stand ci).work = .destroy := by simp [stand, hloop, LoopAt.work]
      rw [hwork] at hserved hcurrent
      refine ⟨fun hunmet ↦ ?_, fun hcb hunmet ↦ ?_⟩
      · rcases hserved hunmet with ⟨hreference, hin⟩ | hserves
        · exact Or.inl ⟨hreference, by simpa using hin⟩
        · simp at hserves
      · simpa using hcurrent hcb hunmet
  | @free next hloop =>
      have hwork : (s.stand ci).work = .free := by simp [stand, hloop, LoopAt.work]
      rw [hwork] at hserved hcurrent
      refine ⟨fun hunmet ↦ ?_, fun hcb hunmet ↦ ?_⟩
      · rcases hserved hunmet with ⟨hreference, hin⟩ | hserves
        · exact Or.inl ⟨hreference, by simpa using hin⟩
        · simp at hserves
      · simpa using hcurrent hcb hunmet
  | clear hloop hmem =>
      exact heeded_take hplaced hall (hqueued.mp hmem) (Or.inr rfl)
  | drop hloop =>
      simp only [Heeded, hloop, LoopHeeds] at hheeded
      exact ⟨fun hunmet ↦ absurd hunmet hheeded, fun _ hunmet ↦ absurd hunmet hheeded⟩
  | @scrap rest hloop hlist =>
      simp only [Heeded, hloop, LoopHeeds] at hheeded
      have hpast := hheeded ci (by simp [hlist])
      exact ⟨fun hunmet ↦ absurd hunmet hpast, fun _ hunmet ↦ absurd hunmet hpast⟩

theorem fresh_heeded (ci : ℕ) : (fresh.stand ci).Heeded := by
  constructor
  · intro hunmet
    simp [stand, fresh, CmdRecord.absent, CmdRecord.Unmet, CallerAt.expectant] at hunmet
  · intro _ hunmet
    simp [stand, fresh, CmdRecord.absent, CmdRecord.Unmet, CallerAt.expectant] at hunmet

structure Tended (s : Sharing) : Prop where
  placed : s.Placed
  heeded : ∀ ci, (s.stand ci).Heeded

theorem Tended.awake (h : s.Tended) : s.Awake := by
  intro ci hwaiting hanswerable
  simp only [Answerable, not_or] at hanswerable
  obtain ⟨hmem, hregistered, hserves⟩ := hanswerable
  apply Nat.pos_of_ne_zero
  intro hposts
  have hunmet : (s.records ci).Unmet := ⟨by rw [hwaiting]; rfl, hposts⟩
  have hwork : ∀ w, w.serves = true → s.loop.work ci ≠ w := by
    rintro w hw rfl
    exact hserves hw
  rcases (h.heeded ci).served hunmet with ⟨-, hin⟩ | ⟨reply, hstore⟩ | hpost
  · rcases hin with hqueued | hreg | hissue | ⟨reply, hreply⟩ | hdrop
    · exact hmem hqueued
    · exact hregistered hreg
    · exact hwork .issue rfl hissue
    · exact hwork (.reply reply) rfl hreply
    · exact hwork .drop rfl hdrop
  · exact hwork (.store reply) rfl hstore
  · exact hwork .post rfl hpost

/-- No caller sleeps in vain in a run in which the event loop lets go of a caller
that will wait only with a post. -/
theorem heeded_awake {s : Sharing} (h : machine.Reach Heeded s) : s.Awake := by
  have htended : s.Tended := by
    refine h.invariant ?_ ?_
    · rintro s rfl
      exact ⟨fresh_placed, fresh_heeded⟩
    · intro s a s' hs hheeded hstep
      refine ⟨hs.placed.step hstep, fun ci ↦ ?_⟩
      exact (step_move hs.placed.nodup hstep ci).heeded (hs.placed.stands ci) (hs.heeded ci) hheeded
  exact htended.awake

end Sharing

end MuxHiredis
