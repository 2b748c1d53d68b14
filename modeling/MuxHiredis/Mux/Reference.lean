import MuxHiredis.Mux.Moves

/-!
# The counter of a command record

`ci->reference` counts the caller, until it counts itself down, and the event
loop, as long as it has the record in `cmd_list`, as the `privdata` of a
callback, or in hand on the way from one to the other.
-/

namespace MuxHiredis

/-- The event loop has the record in hand and has not counted it down. -/
def Work.holds : Work → Bool
  | .issue | .reply _ | .drop => true
  | _ => false

namespace Sharing

/-- The event loop holds the record. -/
def Held (s : Sharing) (ci : ℕ) : Prop :=
  ci ∈ s.cmdList ∨ s.ac.Holds ci ∨ (s.loop.work ci).holds = true

instance (s : Sharing) : DecidablePred s.Held := fun _ ↦ inferInstanceAs (Decidable (_ ∨ _ ∨ _))

/-- The counter of every record that is not freed is the number of its holders,
and a record without holders is freed. -/
def Counted (s : Sharing) : Prop :=
  ∀ ci, (s.records ci).pc ≠ .absent →
    ((s.records ci).freed = 0 →
      (s.records ci).reference = (s.records ci).pc.references + if s.Held ci then 1 else 0) ∧
    ((s.records ci).pc = .done → ¬s.Held ci → s.loop.work ci = .none → 0 < (s.records ci).freed)

/-- A callback that is taken was registered for its record and is not registered
for it any more. -/
def TakenOnce (s : Sharing) (cb : RedisCallback) (ac : AsyncContext) : Prop :=
  cb.fn ≠ none → (s.records cb.privdata).freed = 0 →
    s.ac.Holds cb.privdata ∧ ¬ac.Holds cb.privdata

instance (s : Sharing) (cb : RedisCallback) : DecidablePred (s.TakenOnce cb) :=
  fun _ ↦ inferInstanceAs (Decidable (_ → _ → _ ∧ _))

/-- A command is accepted, its callback is registered, and no record loses its
own by that. -/
def Registers (s : Sharing) (ci : ℕ) : Option (Status × AsyncContext) → Prop
  | none => True
  | some p =>
      ((s.records ci).freed = 0 → p.2.Holds ci) ∧
        ∀ cb ∈ s.ac.registry, cb.fn ≠ none → (s.records cb.privdata).freed = 0 →
          p.2.Holds cb.privdata

instance (s : Sharing) (ci : ℕ) : DecidablePred (s.Registers ci)
  | none => .isTrue trivial
  | some _ => inferInstanceAs (Decidable ((_ → _) ∧ ∀ cb ∈ _, _ → _ → _))

def PickedOnce (s : Sharing) : Option AsyncContext.Picked → Prop
  | some (.run cb ac) => s.TakenOnce cb ac
  | _ => True

instance (s : Sharing) : DecidablePred s.PickedOnce
  | some (.run cb ac) => inferInstanceAs (Decidable (s.TakenOnce cb ac))
  | some (.disconnect _) | none => .isTrue trivial

def PendingOnce (s : Sharing) : Option (RedisCallback × AsyncContext) → Prop
  | some (cb, ac) => s.TakenOnce cb ac
  | none => True

instance (s : Sharing) : DecidablePred s.PendingOnce
  | some (cb, ac) => inferInstanceAs (Decidable (s.TakenOnce cb ac))
  | none => .isTrue trivial

def LoopBalanced (s : Sharing) : LoopAt → Prop
  | .issuing ci _ => s.Registers ci (s.ac.asyncCommand (some 0) ci (s.records ci).cmd)
  | .ending => s.PendingOnce (nextPending s.ac)
  | _ => True

instance (s : Sharing) : DecidablePred s.LoopBalanced
  | .issuing ci _ =>
      inferInstanceAs (Decidable
        (s.Registers ci (s.ac.asyncCommand (some 0) ci (s.records ci).cmd)))
  | .ending => inferInstanceAs (Decidable (s.PendingOnce (nextPending s.ac)))
  | .idle | .tasking _ | .replying .. | .writing .. | .posting .. | .destroying .. | .freeing ..
  | .clearing | .dropping _ | .unlocking | .scrapping | .finished => .isTrue trivial

/-- The condition on the steps.  A caller that gives up finds that the event loop
has taken its record out of `cmd_list`; a dispatched command registers its
callback and replaces no other; and a callback runs once for each registration. -/
def Balanced (s : Sharing) : Action → Prop
  | .caller ci => (s.records ci).pc = .searching → ci ∉ s.cmdList
  | .read reply => s.PickedOnce (s.ac.pickCallback s.cb reply)
  | .endCall => s.ac.flags.monitoring = true → s.cb.fn = none
  | .loop => s.LoopBalanced s.loop
  | _ => True

instance (s : Sharing) : DecidablePred s.Balanced
  | .caller _ => inferInstanceAs (Decidable (_ → _ ∉ _))
  | .read reply => inferInstanceAs (Decidable (s.PickedOnce (s.ac.pickCallback s.cb reply)))
  | .endCall => inferInstanceAs (Decidable (_ → _))
  | .loop => inferInstanceAs (Decidable (s.LoopBalanced s.loop))
  | .call _ _ | .context _ | .task _ | .close _ | .free => .isTrue trivial

end Sharing

/-- What the event loop counts for a record at the place. -/
def Place.references : Place → ℤ
  | .queued | .taken | .issuing | .held => 1
  | _ => 0

/-- The account of a record that is not freed. -/
structure Stand.Tallied (v : Stand) : Prop where
  count : v.record.pc ≠ .absent →
    v.record.reference = v.record.pc.references + v.record.place.references
  place : v.record.place ≠ .refused ∧ v.record.place ≠ .withdrawn ∧ v.record.place ≠ .scrapped
  unseen : v.record.place = .unseen → v.record.pc.early = true ∧ v.record.pc ≠ .refusedFreed
  held : v.record.place = .held → v.registered ∨ ∃ reply, v.work = .reply reply
  reply : ∀ reply, v.work = .reply reply → v.record.place = .held ∧ ¬v.registered
  called : v.record.place = .called → ¬v.registered
  zero : v.record.reference = 0 → v.record.pc.early = false →
    v.record.pc = .destroying ∨ v.record.pc = .freeing ∨ v.work = .destroy ∨ v.work = .free
  sought : v.record.pc ≠ .withdrawing

def Stand.Tally (v : Stand) : Prop := v.record.freed = 0 → v.Tallied

namespace Stand

theorem Tallied.go {v : Stand} (h : v.Tallied) (r : CmdRecord)
    (queued : Prop) (hplace : r.place = v.record.place)
    (hcount : r.reference = v.record.reference + (r.pc.references - v.record.pc.references))
    (habsent : v.record.pc ≠ .absent)
    (hearly : v.record.pc.early = true → r.pc.early = true ∧ r.pc ≠ .refusedFreed)
    (hzero : r.reference = 0 → r.pc.early = false →
      r.pc = .destroying ∨ r.pc = .freeing ∨ v.work = .destroy ∨ v.work = .free)
    (hsought : r.pc ≠ .withdrawing) : Tallied { v with record := r, queued := queued } := by
  constructor
  · intro _
    change r.reference = r.pc.references + r.place.references
    rw [hcount, hplace, h.count habsent]
    omega
  · exact hplace ▸ h.place
  · exact fun hunseen ↦ hearly (h.unseen (hplace ▸ hunseen)).1
  · exact hplace ▸ h.held
  · exact hplace ▸ h.reply
  · exact hplace ▸ h.called
  · exact hzero
  · exact hsought

end Stand

namespace CmdRecord

theorem stepCaller_freed (connected hasCtx queued : Bool) (r : CmdRecord) :
    r.freed ≤ (r.stepCaller connected hasCtx queued).freed := by
  obtain ⟨cmd, reference, reply, posts, freed, stale, pc, place⟩ := r
  cases pc <;> cases hasCtx <;> cases queued <;>
    simp [stepCaller, goto, free, put, count, touch]

end CmdRecord

namespace Sharing

variable {s s' : Sharing} {ci : ℕ} {a : Action} {v : Stand}

theorem tally_caller (hplaced : (s.stand ci).Placed) (h : (s.stand ci).Tally)
    (hbalanced : (s.records ci).pc = .searching → ci ∉ s.cmdList)
    (habsent : (s.records ci).pc ≠ .absent) : Stand.Tally { s.stand ci with
      record := (s.records ci).stepCaller s.connected s.hasCtx (ci ∈ s.cmdList)
      queued := s.queuedAfter ci } := by
  intro hfreed
  change ((s.records ci).stepCaller s.connected s.hasCtx (ci ∈ s.cmdList)).freed = 0 at hfreed
  have hzero : (s.records ci).freed = 0 :=
    Nat.le_zero.mp (hfreed ▸ CmdRecord.stepCaller_freed s.connected s.hasCtx (ci ∈ s.cmdList) _)
  have hplace := CmdRecord.stepCaller_place s.connected s.hasCtx (ci ∈ s.cmdList) (s.records ci)
  have ht := h hzero
  have hcount := ht.count habsent
  have hunseen := ht.unseen
  have href := ht.zero
  simp only [stand] at hcount hunseen href
  have hgo := ht.go ((s.records ci).stepCaller s.connected s.hasCtx (ci ∈ s.cmdList))
    (s.queuedAfter ci)
  simp only [stand] at hgo
  cases hpc : (s.records ci).pc <;> rw [hpc] at hplace hcount href
  case absent => exact absurd hpc habsent
  case adding =>
      have hplace' : (s.records ci).place = .unseen :=
        hplaced.early (by simp [stand, hpc, CallerAt.early])
      have hout : ¬s.ac.Holds ci := fun hreg ↦ by
        have hheld := hplaced.callbacks (Or.inl hreg)
        simp [stand, hplace'] at hheld
      have hfits : s.loop.work ci = .none := by
        have hfits := hplaced.fits
        simpa [stand, hplace', Place.Fits] using hfits
      rw [hplace'] at hcount
      constructor
      all_goals
        simp [CmdRecord.stepCaller, hpc, CmdRecord.goto, CmdRecord.put, stand, hcount,
          CallerAt.references, Place.references, hfits]
  case withdrawing => exact absurd hpc ht.sought
  case searching =>
      have hmem := hbalanced hpc
      rw [if_neg (by simp), if_neg (by simp)] at hplace
      refine hgo hplace ?_ habsent ?_ ?_ ?_
      · simp [CmdRecord.stepCaller, hpc, hmem, CmdRecord.goto, CallerAt.references]
      · simp [hpc, CallerAt.early]
      · simpa [CmdRecord.stepCaller, hpc, hmem, CmdRecord.goto, CallerAt.early] using href
      · simp [CmdRecord.stepCaller, hpc, hmem, CmdRecord.goto]
  case dropping =>
      rw [if_neg (by simp), if_neg (by simp)] at hplace
      refine hgo hplace ?_ habsent ?_ ?_ ?_
      · simp only [CmdRecord.stepCaller, hpc, CmdRecord.goto, CmdRecord.count, CmdRecord.touch]
        split <;> simp [CallerAt.references]
      · simp [hpc, CallerAt.early]
      · simp only [CmdRecord.stepCaller, hpc, CmdRecord.goto, CmdRecord.count, CmdRecord.touch]
        split
        · simp
        · omega
      · simp only [CmdRecord.stepCaller, hpc, CmdRecord.goto]
        split <;> simp
  case looking =>
      rw [if_neg (by simp), if_neg (by simp)] at hplace
      refine hgo hplace ?_ habsent ?_ ?_ ?_
      all_goals
        simp only [CmdRecord.stepCaller, hpc, CmdRecord.goto, CmdRecord.touch]
        split <;> simp [CallerAt.early, CallerAt.references] at href ⊢ <;> exact href
  case noContext => simp [CmdRecord.stepCaller, hpc, CmdRecord.goto, CmdRecord.free] at hfreed
  case refusedFreeing => simp [CmdRecord.stepCaller, hpc, CmdRecord.goto, CmdRecord.free] at hfreed
  case freeing => simp [CmdRecord.stepCaller, hpc, CmdRecord.goto, CmdRecord.free] at hfreed
  case refusedFreed =>
      have hplace' : (s.records ci).place = .unseen :=
        hplaced.early (by simp [stand, hpc, CallerAt.early])
      exact absurd hpc (hunseen hplace').2
  case locked =>
      rw [if_neg (by simp), if_neg (by simp)] at hplace
      refine hgo hplace ?_ habsent ?_ ?_ ?_
      all_goals
        simp only [CmdRecord.stepCaller, hpc]
        split <;> simp [CmdRecord.goto, CmdRecord.count, CmdRecord.touch, CallerAt.early,
          CallerAt.references]
  case counted =>
      rw [if_neg (by simp), if_neg (by simp)] at hplace
      refine hgo hplace ?_ habsent ?_ ?_ ?_
      all_goals
        simp only [CmdRecord.stepCaller, hpc]
        split <;> simp [CmdRecord.goto, CallerAt.early, CallerAt.references]
  case checking =>
      rw [if_neg (by simp), if_neg (by simp)] at hplace
      refine hgo hplace ?_ habsent ?_ ?_ ?_
      all_goals
        simp only [CmdRecord.stepCaller, hpc]
        split <;> simp [CmdRecord.goto, CallerAt.early, CallerAt.references] at href ⊢
      exact href
  case created | refused | destroying =>
      rw [if_neg (by simp), if_neg (by simp)] at hplace
      refine hgo hplace ?_ habsent ?_ ?_ ?_
      all_goals
        simp [CmdRecord.stepCaller, hpc, CmdRecord.goto, CmdRecord.touch, CallerAt.early,
          CallerAt.references]
  all_goals
    rw [if_neg (by simp), if_neg (by simp)] at hplace
    refine hgo hplace ?_ habsent ?_ ?_ ?_
    · simp [CmdRecord.stepCaller, hpc, CmdRecord.goto, CmdRecord.touch, CallerAt.references]
    · simp [CmdRecord.stepCaller, hpc, CmdRecord.goto, CallerAt.early]
    · simpa [CmdRecord.stepCaller, hpc, CmdRecord.goto, CmdRecord.touch, CallerAt.early] using href
    · simp [CmdRecord.stepCaller, hpc, CmdRecord.goto]

theorem tallied_count (hplaced : (s.stand ci).Placed) (h : (s.stand ci).Tallied)
    (hplace : (s.records ci).place ≠ .unseen) : (s.records ci).reference =
      (s.records ci).pc.references + (s.records ci).place.references :=
  h.count (present_of_place hplaced hplace)

theorem tally_take (hplaced : (s.stand ci).Placed) (h : (s.stand ci).Tallied)
    (hqueued : (s.records ci).place = .queued) {p : Place} (hp : p = .issuing ∨ p = .taken)
    {w : Work} (hw : ∀ reply, w ≠ .reply reply) : Stand.Tallied { s.stand ci with
      record := (s.records ci).put p, work := w, queued := False } := by
  have hcount : (s.records ci).reference = (s.records ci).pc.references + 1 := by
    rw [tallied_count hplaced h (by simp [hqueued]), hqueued]
    rfl
  have hone : p.references = 1 := by
    rcases hp with rfl | rfl <;> rfl
  constructor
  · exact fun _ ↦ hcount.trans (by rw [← hone]; rfl)
  · rcases hp with rfl | rfl <;> simp [CmdRecord.put]
  · rcases hp with rfl | rfl <;> simp [CmdRecord.put]
  · rcases hp with rfl | rfl <;> simp [CmdRecord.put]
  · exact fun reply hreply ↦ absurd hreply (hw reply)
  · rcases hp with rfl | rfl <;> simp [CmdRecord.put]
  · intro hzero
    change (s.records ci).reference = 0 at hzero
    have := CallerAt.references_nonneg (s.records ci).pc
    omega
  · exact h.sought

theorem tally_run (hplaced : (s.stand ci).Placed) (h : (s.stand ci).Tallied)
    (hregistered : s.ac.Holds ci) {registered current : Prop} (hout : ¬registered) (reply : Bool) :
    Stand.Tallied { s.stand ci with
      work := .reply reply, registered := registered, current := current } := by
  have hheld : (s.records ci).place = .held :=
    (hplaced.callbacks (Or.inl hregistered)).resolve_right fun hcalled ↦
      h.called hcalled hregistered
  have hcount : (s.records ci).reference = (s.records ci).pc.references + 1 := by
    rw [tallied_count hplaced h (by simp [hheld]), hheld]
    rfl
  refine { h with
    held := fun _ ↦ Or.inr ⟨reply, rfl⟩
    reply := fun _ _ ↦ ⟨hheld, hout⟩
    called := fun _ ↦ hout
    zero := fun hzero ↦ ?_ }
  change (s.records ci).reference = 0 at hzero
  have := CallerAt.references_nonneg (s.records ci).pc
  omega

theorem Move.tally (hplaced : (s.stand ci).Placed) (h : (s.stand ci).Tally)
    (hbalanced : s.Balanced a) (hmove : s.Move ci a v) : v.Tally := by
  have hfits : (s.records ci).place.Fits (s.loop.work ci) := hplaced.fits
  have hqueued : ci ∈ s.cmdList ↔ (s.records ci).place = .queued := hplaced.queued
  have hcallbacks : s.ac.Holds ci ∨ s.cb.For ci → (s.records ci).place = .held ∨
    (s.records ci).place = .called := hplaced.callbacks
  cases hmove with
  | rest hcurrent =>
      intro hfreed
      have ht := h hfreed
      exact { ht with }
  | @call cmd habsent =>
      intro _
      have hunseen : (s.records ci).place = .unseen :=
        hplaced.early (by simp [stand, habsent, CallerAt.early])
      have hnone : s.loop.work ci = .none := by simpa [hunseen, Place.Fits] using hfits
      constructor <;>
        simp [CmdRecord.create, CallerAt.references, CallerAt.early, Place.references, stand, hnone]
  | caller habsent hdone => exact tally_caller hplaced h hbalanced habsent
  | repush hidle hmonitoring =>
      intro hfreed
      have ht := h hfreed
      have hnone : ¬s.cb.For ci := fun hfor ↦ hfor.1 (hbalanced hmonitoring)
      have hsame : (s.ac.Holds ci ∨ s.cb.For ci) = s.ac.Holds ci := by simp [hnone]
      simp only [stand] at ht
      simp only [stand, hsame]
      exact { ht with }
  | @read reply cb ac hidle hpick hfor =>
      intro hfreed
      simp only [Balanced, hpick, PickedOnce] at hbalanced
      obtain ⟨hregistered, hout⟩ := hbalanced hfor.1 (hfor.2 ▸ hfreed)
      rw [hfor.2] at hregistered hout
      exact tally_run hplaced (h hfreed) hregistered hout true
  | @pending cb ac hloop hnext hfor =>
      intro hfreed
      simp only [Balanced, hloop, LoopBalanced, hnext, PendingOnce] at hbalanced
      obtain ⟨hregistered, hout⟩ := hbalanced hfor.1 (hfor.2 ▸ hfreed)
      rw [hfor.2] at hregistered hout
      exact tally_run hplaced (h hfreed) hregistered hout false
  | take hloop hmem =>
      intro hfreed
      exact tally_take hplaced (h hfreed) (hqueued.mp hmem) (Or.inl rfl) (by simp)
  | @issue num p hloop hcmd =>
      intro hfreed
      have ht := h hfreed
      simp only [Balanced, hloop, LoopBalanced, hcmd, Registers] at hbalanced
      have hregistered := hbalanced.1 hfreed
      have hplace : (s.records ci).place = .issuing := by
        simp only [hloop, LoopAt.work, if_true] at hfits
        exact hfits.place
      have hok : p.1 = .ok := by
        rcases hregistered.of_asyncCommand hcmd with hold | ⟨hok, -⟩
        · simp [hplace] at hcallbacks
          exact absurd hold hcallbacks.1
        · exact hok
      have hcount : (s.records ci).reference = (s.records ci).pc.references + 1 := by
        rw [tallied_count hplaced ht (by simp [hplace]), hplace]
        rfl
      rw [if_pos hok]
      constructor
      · exact fun _ ↦ hcount
      · simp [CmdRecord.put]
      · simp [CmdRecord.put]
      · exact fun _ ↦ Or.inl hregistered
      · simp
      · simp [CmdRecord.put]
      · intro hzero
        change (s.records ci).reference = 0 at hzero
        have := CallerAt.references_nonneg (s.records ci).pc
        omega
      · exact ht.sought
  | @replaced cj num p hne hloop hcmd =>
      intro hfreed
      have ht := h hfreed
      simp only [Balanced, hloop, LoopBalanced, hcmd, Registers] at hbalanced
      have hsame : p.2.Holds ci = s.ac.Holds ci := by
        apply propext
        constructor
        · exact fun hreg ↦ (hreg.of_asyncCommand hcmd).resolve_right fun h ↦ hne h.2
        · rintro ⟨cb, hcb, hfor⟩
          exact hfor.2 ▸ hbalanced.2 cb hcb hfor.1 (hfor.2 ▸ hfreed)
      rw [hsame]
      exact ht
  | @countDown reply next hloop =>
      intro hfreed
      have ht := h hfreed
      have hwork : (s.stand ci).work = .reply reply := by simp [stand, hloop, LoopAt.work]
      obtain ⟨hplace, hout⟩ := ht.reply reply hwork
      change (s.records ci).place = .held at hplace
      have hcount := tallied_count hplaced ht (by simp [hplace])
      rw [hplace, Place.references] at hcount
      constructor
      · intro _
        change (s.records ci).reference + -1 = (s.records ci).pc.references + 0
        omega
      · simp [CmdRecord.put]
      · simp [CmdRecord.put]
      · simp [CmdRecord.put]
      · intro reply'
        dsimp only
        split <;> simp
      · exact fun _ ↦ hout
      · intro hzero _
        change (s.records ci).reference + -1 = 0 at hzero
        exact Or.inr (Or.inr (Or.inl (if_pos (by omega))))
      · exact ht.sought
  | @store reply next hloop =>
      intro hfreed
      have ht := h hfreed
      have hwork : (s.stand ci).work = .store reply := by simp [stand, hloop, LoopAt.work]
      refine { ht with
        held := fun hheld ↦ ?_
        reply := by simp
        zero := fun hzero hearly ↦ ?_ }
      · simpa [hwork] using ht.held hheld
      · simpa [stand, hloop, LoopAt.work, CmdRecord.touch] using ht.zero hzero hearly
  | @post next hloop =>
      intro hfreed
      have ht := h hfreed
      have hwork : (s.stand ci).work = .post := by simp [stand, hloop, LoopAt.work]
      refine { ht with
        held := fun hheld ↦ ?_
        reply := by simp
        zero := fun hzero hearly ↦ ?_ }
      · simpa [hwork] using ht.held hheld
      · simpa [stand, hloop, LoopAt.work, CmdRecord.touch] using ht.zero hzero hearly
  | @destroy next hloop =>
      intro hfreed
      have ht := h hfreed
      have hwork : (s.stand ci).work = .destroy := by simp [stand, hloop, LoopAt.work]
      refine { ht with
        held := fun hheld ↦ ?_
        reply := by simp
        zero := by simp }
      simpa [hwork] using ht.held hheld
  | free hloop => exact fun hfreed ↦ absurd hfreed (Nat.succ_ne_zero _)
  | clear hloop hmem =>
      intro hfreed
      exact tally_take hplaced (h hfreed) (hqueued.mp hmem) (Or.inr rfl) (by simp)
  | drop hloop =>
      intro hfreed
      have ht := h hfreed
      have hplace : (s.records ci).place = .taken := by
        simp only [hloop, LoopAt.work, if_true] at hfits
        exact hfits.place
      have hcount := tallied_count hplaced ht (by simp [hplace])
      rw [hplace] at hcount
      constructor
      · intro _
        change (s.records ci).reference + -1 = (s.records ci).pc.references + 0
        rw [hcount]
        simp [Place.references]
      · simp [CmdRecord.put]
      · simp [CmdRecord.put]
      · simp [CmdRecord.put]
      · intro reply'
        dsimp only
        split <;> simp
      · simp [CmdRecord.put]
      · intro hzero _
        change (s.records ci).reference + -1 = 0 at hzero
        exact Or.inr (Or.inr (Or.inl (if_pos (by omega))))
      · exact ht.sought
  | scrap hloop hlist => exact fun hfreed ↦ absurd hfreed (Nat.succ_ne_zero _)

/-- The holders of a record are where its place says. -/
theorem held_iff (hplaced : (s.stand ci).Placed) (h : (s.stand ci).Tallied) :
    (if s.Held ci then 1 else 0) = (s.records ci).place.references := by
  have hfits : (s.records ci).place.Fits (s.loop.work ci) := hplaced.fits
  have hqueued : ci ∈ s.cmdList ↔ (s.records ci).place = .queued := hplaced.queued
  have hheld : (s.records ci).place = .held →
    s.ac.Holds ci ∨ ∃ reply, s.loop.work ci = .reply reply := h.held
  by_cases hin : s.Held ci
  · rw [if_pos hin]
    have hplace : (s.records ci).place = .queued ∨ (s.records ci).place = .held ∨
        (s.records ci).place = .issuing ∨ (s.records ci).place = .taken := by
      rcases hin with hmem | hregistered | hwork
      · exact Or.inl (hqueued.mp hmem)
      · have hplace := hplaced.callbacks (Or.inl hregistered)
        exact Or.inr (Or.inl (hplace.resolve_right fun hcalled ↦ h.called hcalled hregistered))
      · cases hw : s.loop.work ci with
        | reply reply => exact Or.inr (Or.inl (h.reply reply hw).1)
        | issue =>
            rw [hw] at hfits
            exact Or.inr (Or.inr (Or.inl hfits.place))
        | drop =>
            rw [hw] at hfits
            exact Or.inr (Or.inr (Or.inr hfits.place))
        | _ => simp [hw, Work.holds] at hwork
    rcases hplace with hplace | hplace | hplace | hplace <;> rw [hplace] <;> rfl
  · rw [if_neg hin]
    simp only [Held, not_or] at hin
    obtain ⟨hmem, hregistered, hwork⟩ := hin
    cases hp : (s.records ci).place with
    | queued => exact absurd (hqueued.mpr hp) hmem
    | held =>
        rcases hheld hp with hreg | ⟨reply, hreply⟩
        · exact absurd hreg hregistered
        · simp [hreply, Work.holds] at hwork
    | issuing | taken =>
        rw [hp, Place.Fits] at hfits
        simp [hfits, Work.holds] at hwork
    | _ => rfl

/-- The invariant of a run in which no holder is lost. -/
structure Accounted (s : Sharing) : Prop where
  placed : s.Placed
  tally : ∀ ci, (s.stand ci).Tally

theorem Accounted.counted (h : s.Accounted) : s.Counted := by
  intro ci hpresent
  have hplaced := h.placed.stands ci
  have hcount : (s.records ci).freed = 0 → (s.records ci).reference =
      (s.records ci).pc.references + if s.Held ci then 1 else 0 := by
    intro hfreed
    rw [held_iff hplaced (h.tally ci hfreed)]
    exact (h.tally ci hfreed).count hpresent
  refine ⟨hcount, fun hdone hheld hwork ↦ Nat.pos_of_ne_zero fun hfreed ↦ ?_⟩
  have hzero : (s.records ci).reference = 0 := by
    rw [hcount hfreed, if_neg hheld, hdone]
    rfl
  have hlast := (h.tally ci hfreed).zero hzero (by simp [stand, hdone, CallerAt.early])
  simp [stand, hdone, hwork] at hlast

theorem fresh_accounted : fresh.Accounted := by
  refine ⟨fresh_placed, fun ci _ ↦ ?_⟩
  constructor <;> simp [stand, fresh, CmdRecord.absent, LoopAt.work, CallerAt.early]

/-- In every run in which a record leaves `cmd_list` and the registered callbacks
only on a path that counts, the counter is the number of holders. -/
theorem balanced_counted {s : Sharing} (h : machine.Reach Balanced s) : s.Counted := by
  have haccounted : s.Accounted := by
    refine h.invariant ?_ ?_
    · rintro s rfl
      exact fresh_accounted
    · intro s a s' hs hbalanced hstep
      refine ⟨hs.placed.step hstep, fun ci ↦ ?_⟩
      exact (step_move hs.placed.nodup hstep ci).tally (hs.placed.stands ci) (hs.tally ci) hbalanced
  exact haccounted.counted

/-- A caller times out after its command was dispatched: the callback of the reply
frees the record. -/
theorem balanced_counted_timeout :
    ∃ s, machine.Reach Balanced s ∧ (s.records 0).pc = .done ∧ (s.records 0).freed = 1 ∧
      s.Counted := by
  obtain ⟨s, hrun, hfreed⟩ := machine.run_spec fresh
    ([Action.call 0 (Command.ofWords "GET" ["x"]).bytes] ++ List.replicate 6 (Action.caller 0) ++
      [Action.task 1, .loop, .loop, .loop] ++ List.replicate 5 (Action.caller 0) ++
      [Action.read .nil, .loop, .loop, .loop])
    (fun s ↦ decide ((s.records 0).pc = .done ∧ (s.records 0).freed = 1)) (by decide +kernel)
  obtain ⟨hdone, hfreed⟩ := of_decide_eq_true hfreed
  have hreach : machine.Reach Balanced s := .run (.start rfl) (by decide +kernel) hrun
  exact ⟨s, hreach, hdone, hfreed, balanced_counted hreach⟩

/-- A caller times out while its command is queued: it takes the record out of
`cmd_list` without counting, and the record is never freed. -/
theorem withdrawn_leaks :
    ∃ s, machine.Reachable s ∧ ¬s.Counted := by
  obtain ⟨s, hrun, hleak⟩ := machine.run_spec fresh
    ([Action.call 0 (Command.ofWords "GET" ["x"]).bytes] ++ List.replicate 12 (Action.caller 0))
    (fun s ↦ decide ((s.records 0).pc = .done ∧ ¬s.Held 0 ∧ s.loop.work 0 = .none ∧
      (s.records 0).freed = 0)) (by decide +kernel)
  obtain ⟨hdone, hheld, hwork, hfreed⟩ := of_decide_eq_true hleak
  refine ⟨s, .run (.start rfl) hrun, fun h ↦ ?_⟩
  have hlast := (h 0 (by simp [hdone])).2 hdone hheld hwork
  simp [hfreed] at hlast

end Sharing

end MuxHiredis
